import ObjectVault.Container.Fault
import ObjectVault.Zstd.Block
import ObjectVault.Zstd.Xxh64

namespace ObjectVault.Zstd

/-- The bytes that compressed data gives before it ends or cannot be read any further. -/
structure Inflated where
  bytes : Bytes
  fault : Option ContainerFault

def magic : Bytes := [0x28, 0xB5, 0x2F, 0xFD]

/-- The largest number of bytes that one block holds. -/
def maxBlock : Nat := 128 * 1024

/-- The part of a frame header that decoding depends on. -/
structure FrameHeader where
  blockLimit : Nat
  contentSize : Option Nat
  checksum : Bool

/-- The number of bytes of the content size, by its form. -/
def contentSizeWidth (form : Nat) (single : Bool) : Nat :=
  match form with
  | 0 => if single then 1 else 0
  | 1 => 2
  | 2 => 4
  | _ => 8

/-- The size of the window that a descriptor gives. -/
def windowSize (descriptor : UInt8) : Nat :=
  let base := 1 <<< (10 + descriptor.toNat / 8)
  base + base / 8 * (descriptor.toNat % 8)

/-- Reads a frame header behind the magic number. -/
def FrameHeader.read (bytes : Bytes) : Except ContainerFault (FrameHeader × Bytes) :=
  match bytes with
  | [] => .error .incompleteFrame
  | descriptor :: rest =>
    let flags := descriptor.toNat
    let single := flags.testBit 5
    let form := flags / 64
    let dictionaryWidth := [0, 1, 2, 4].getD (flags % 4) 0
    let sizeWidth := contentSizeWidth form single
    let windowWidth := if single then 0 else 1
    if flags.testBit 3 then .error .unsupportedFrame
    else if rest.length < windowWidth + dictionaryWidth + sizeWidth then .error .incompleteFrame
    else
      let fields := rest.drop windowWidth
      let dictionary := Bytes.ofLittleEndian (fields.take dictionaryWidth)
      let size := Bytes.ofLittleEndian ((fields.drop dictionaryWidth).take sizeWidth)
      let content := if sizeWidth = 0 then none else some (if form = 1 then size + 256 else size)
      let window := if single then content.getD 0 else windowSize (rest.headD 0)
      if dictionary ≠ 0 then .error .needsDictionary
      else if window > 1 <<< 27 then .error .unsupportedFrame
      else
        .ok (⟨min window maxBlock, content, flags.testBit 2⟩,
          fields.drop (dictionaryWidth + sizeWidth))

def decodeBlock (ctx : Context) (limit kind size : Nat) (bytes : Bytes) :
    Option (Context × Bytes) :=
  match kind with
  | 0 =>
    if size > limit || bytes.length < size then none
    else some ({ ctx with output := (bytes.take size).foldl Array.push ctx.output },
      bytes.drop size)
  | 1 =>
    match bytes with
    | [] => none
    | b :: rest =>
      if size > limit then none
      else some ({ ctx with output := (List.replicate size b).foldl Array.push ctx.output }, rest)
  | 2 =>
    if size > limit || bytes.length < size then none
    else (ctx.decompress limit (bytes.take size)).map (·, bytes.drop size)
  | _ => none

/-- Decodes blocks up to the last one. With a fault the output of the blocks before it is kept. -/
def decodeBlocks (header : FrameHeader) :
    (fuel : Nat) → Context → Bytes → Context × Except ContainerFault Bytes
  | 0, ctx, _ => (ctx, .error .incompleteFrame)
  | fuel + 1, ctx, bytes =>
    if bytes.length < 3 then (ctx, .error .incompleteFrame)
    else
      let head := Bytes.ofLittleEndian (bytes.take 3)
      let kind := head / 2 % 4
      let size := head / 8
      let needed := if kind = 1 then 1 else size
      if kind ≠ 3 && size ≤ header.blockLimit && (bytes.drop 3).length < needed then
        (ctx, .error .incompleteFrame)
      else match decodeBlock ctx header.blockLimit kind size (bytes.drop 3) with
        | none => (ctx, .error .corruptFrame)
        | some (next, rest) =>
          if head % 2 = 0 then decodeBlocks header fuel next rest
          else if header.contentSize.any (· ≠ next.output.size) then (ctx, .error .corruptFrame)
          else (next, .ok rest)

/-- Checks the hash behind the last block, if there is one. -/
def checkHash (header : FrameHeader) (output bytes : Bytes) : Except ContainerFault Bytes :=
  if !header.checksum then .ok bytes
  else if bytes.length < 4 then .error .incompleteFrame
  else if Bytes.ofLittleEndian (bytes.take 4) ≠ (Xxh64.hash output).toNat % UInt32.size then
    .error .wrongFrameChecksum
  else .ok (bytes.drop 4)

def decodeFrame (bytes : Bytes) : Bytes × Except ContainerFault Bytes :=
  match FrameHeader.read bytes with
  | .error fault => ([], .error fault)
  | .ok (header, rest) =>
    match decodeBlocks header (rest.length + 1) .initial rest with
    | (ctx, .error fault) => (ctx.output.toList, .error fault)
    | (ctx, .ok rest) =>
      let output := ctx.output.toList
      (output, checkHash header output rest)

/-- A frame to pass over: its size follows its magic number. -/
def skipFrame (bytes : Bytes) : Except ContainerFault Bytes :=
  let size := Bytes.ofLittleEndian ((bytes.drop 4).take 4)
  if bytes.length < 8 + size then .error .incompleteFrame else .ok (bytes.drop (8 + size))

/-- Decodes frames to the end of the bytes. -/
def inflateFrames : (fuel : Nat) → Bytes → Inflated
  | 0, _ => ⟨[], none⟩
  | fuel + 1, bytes =>
    if bytes.isEmpty then ⟨[], none⟩
    else
      let number := Bytes.ofLittleEndian (bytes.take 4)
      let (output, next) :=
        if bytes.take 4 = magic then decodeFrame (bytes.drop 4)
        else if bytes.length ≥ 4 && number / 16 = 0x184D2A5 then ([], skipFrame bytes)
        else ([], .error .noFrame)
      match next with
      | .error fault => ⟨output, some fault⟩
      | .ok rest =>
        let later := inflateFrames fuel rest
        ⟨output ++ later.bytes, later.fault⟩

/-- The content of compressed data, which is at least one frame. -/
def inflate (bytes : Bytes) : Inflated :=
  if bytes.isEmpty then ⟨[], some .incompleteFrame⟩ else inflateFrames (bytes.length + 1) bytes

/-- The blocks of a content that is stored as it is. -/
def storedBlocks : (fuel : Nat) → Bytes → Bytes
  | 0, _ => []
  | fuel + 1, bytes =>
    let size := min bytes.length maxBlock
    let last := if bytes.length ≤ maxBlock then 1 else 0
    Bytes.littleEndian 3 (8 * size + last) ++ bytes.take size ++
      (if last = 1 then [] else storedBlocks fuel (bytes.drop size))

/-- A frame with the content in stored blocks, for a window of the size of a block. -/
def deflate (bytes : Bytes) : Bytes :=
  magic ++ [0x00, 0x38] ++ storedBlocks (bytes.length + 1) bytes

end ObjectVault.Zstd
