import ObjectVault.Zstd.Huffman

namespace ObjectVault.Zstd

/-- The header of a literals section. -/
structure LiteralsHeader where
  kind : Nat
  length : Nat
  coded : Nat
  streams : Nat
  rest : Bytes

/-- Reads the header. Its lowest bits give the kind and the width of the sizes. -/
def LiteralsHeader.read (bytes : Bytes) : Option LiteralsHeader :=
  match bytes with
  | [] => none
  | head :: _ =>
    let kind := head.toNat % 4
    let form := head.toNat / 4 % 4
    let whole (count : Nat) : Option (Nat × Bytes) :=
      if bytes.length < count then none
      else some (Bytes.ofLittleEndian (bytes.take count), bytes.drop count)
    if kind < 2 then
      let (count, shift) := if form % 2 = 0 then (1, 3) else if form = 1 then (2, 4) else (3, 4)
      (whole count).map fun (n, rest) =>
        ⟨kind, n >>> shift, if kind = 0 then n >>> shift else 1, 1, rest⟩
    else
      let (count, width) := if form < 2 then (3, 10) else if form = 2 then (4, 14) else (5, 18)
      (whole count).map fun (n, rest) =>
        let sizes := n / 16
        ⟨kind, sizes % (1 <<< width), (sizes >>> width) % (1 <<< width),
          if form = 0 then 1 else 4, rest⟩

def decodeStream (t : HuffmanTable) (length : Nat) (bytes : Bytes) : Option Bytes := do
  t.decode length (← backwardBits bytes)

/-- Decodes four streams, whose sizes but the last stand in front. -/
def decodeFourStreams (t : HuffmanTable) (length : Nat) (bytes : Bytes) : Option Bytes := do
  if bytes.length < 6 then none
  else
    let size (i : Nat) := Bytes.ofLittleEndian ((bytes.drop (2 * i)).take 2)
    let part := (length + 3) / 4
    let body := bytes.drop 6
    if body.length < size 0 + size 1 + size 2 + 1 || length < 3 * part then none
    else
      let a ← decodeStream t part (body.take (size 0))
      let b ← decodeStream t part ((body.drop (size 0)).take (size 1))
      let c ← decodeStream t part ((body.drop (size 0 + size 1)).take (size 2))
      let d ← decodeStream t (length - 3 * part) (body.drop (size 0 + size 1 + size 2))
      some (a ++ b ++ c ++ d)

/-- The literals of a block, the code for later blocks, and the bytes behind the section. -/
def readLiterals (code : Option HuffmanTable) (limit : Nat) (bytes : Bytes) :
    Option (Bytes × Option HuffmanTable × Bytes) := do
  let h ← LiteralsHeader.read bytes
  if h.rest.length < h.coded || h.length > limit then none
  else
    let coded := h.rest.take h.coded
    let rest := h.rest.drop h.coded
    let decode (t : HuffmanTable) (streams : Bytes) : Option Bytes :=
      if h.streams = 1 then decodeStream t h.length streams
      else decodeFourStreams t h.length streams
    match h.kind with
    | 0 => some (coded, code, rest)
    | 1 => some (List.replicate h.length (coded.headD 0), code, rest)
    | 2 =>
      let (t, streams) ← HuffmanTable.read coded
      some (← decode t streams, some t, rest)
    | _ => some (← decode (← code) coded, code, rest)

end ObjectVault.Zstd
