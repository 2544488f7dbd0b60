import ObjectVault.Container.Entry
import ObjectVault.Container.Extension
import ObjectVault.Container.Sparse
import ObjectVault.Zstd.Frame

namespace ObjectVault.Container
open ObjectVault.Text

/-- The name of an entry: a long name counts most and the name in the header least. -/
def entryName (before : Extension) (header : Header) : Bytes :=
  match before.longName, before.records.bind Extension.path with
  | some name, _ => if name.getLast? = some 0 then name.dropLast else name
  | none, some path => path
  | none, none => header.name

/-- A size of zero may have its true value in a record. -/
def entrySize (before : Extension) (header : Header) : Nat :=
  if header.size = 0 then (before.records.bind Extension.size).getD 0 else header.size

/-- The extension that a content adds to what came before, unless it is an entry of its own. -/
def extend? (before : Extension) (header : Header) (data : Bytes) :
    Option (Except ContainerFault Extension) :=
  if header.format = .plain then none
  else if header.kind = 'L'.toUInt8 then
    some (if before.longName.isSome then .error .repeatedExtension
      else .ok { before with longName := some data })
  else if header.kind = 'K'.toUInt8 then
    some (if before.longLink.isSome then .error .repeatedExtension
      else .ok { before with longLink := some data })
  else if header.kind = 'x'.toUInt8 then
    some (if before.records.isSome then .error .repeatedExtension
      else .ok { before with records := some data })
  else none

/-- Where the blocks end, an extension has nothing to extend. -/
def atEnd (pending : Bool) : Except ContainerFault (List Entry) :=
  if pending then .error .danglingExtension else .ok []

/-- The content of an entry and the number of bytes that it takes behind the header. -/
def content (header : Header) (block : Bytes) (size : Nat) (rest : Bytes) :
    Except ContainerFault (Bytes × Nat) := do
  let (data, blocks) ←
    if header.kind = 'S'.toUInt8 then
      match if header.format = .extended then sparseContent block size rest else none with
      | some sparse => .ok sparse
      | none => .error .brokenRuns
    else .ok (rest.take size, 0)
  let taken := blocks * blockSize + roundedUp size
  if rest.length < taken then .error .shortEntry else .ok (data, taken)

/-- The entries up to a block of zeros or the end of the bytes. The fault is what stands at the end
of the bytes, if they are cut off there. -/
def readEntries (fault : Option ContainerFault) (before : Extension) (pending : Bool)
    (bytes : Bytes) : Except ContainerFault (List Entry) :=
  if _ : bytes.length < blockSize then
    match fault with
    | some fault => .error fault
    | none => if bytes.isEmpty then atEnd pending else .error .shortBlock
  else
    let block := bytes.take blockSize
    let rest := bytes.drop blockSize
    if block.all (· == 0) then atEnd pending
    else
      match Header.ofBlock block with
      | .error fault => .error fault
      | .ok header =>
        match content header block (entrySize before header) rest with
        | .error .shortEntry => .error (fault.getD .shortEntry)
        | .error fault => .error fault
        | .ok (data, taken) =>
          match extend? before header data with
          | some (.error fault) => .error fault
          | some (.ok extension) => readEntries fault extension true (rest.drop taken)
          | none =>
            (readEntries fault .none false (rest.drop taken)).map
              (⟨lossyUtf8 (entryName before header), data⟩ :: ·)
termination_by bytes.length
decreasing_by
  all_goals
    simp only [List.length_drop]
    have : 0 < blockSize := by decide
    omega

def ofBytes (bytes : Bytes) : Except ContainerFault (List Entry) :=
  let inflated := Zstd.inflate bytes
  readEntries inflated.fault .none false inflated.bytes

end ObjectVault.Container
