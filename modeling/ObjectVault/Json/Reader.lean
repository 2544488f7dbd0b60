import ObjectVault.Json.Number

namespace ObjectVault.Json
open ObjectVault.Decimal

def isSpace (c : Char) : Bool :=
  c == ' ' || c == '\n' || c == '\r' || c == '\t'

def skipSpace (cs : List Char) : List Char :=
  cs.dropWhile isSpace

def hexValue (c : Char) : Option Nat :=
  if c.isDigit then some (c.toNat - 48)
  else if 'a' ≤ c && c ≤ 'f' then some (c.toNat - 87)
  else if 'A' ≤ c && c ≤ 'F' then some (c.toNat - 55)
  else none

def hexFour (a b c d : Char) : Option Nat := do
  return (((← hexValue a) * 16 + (← hexValue b)) * 16 + (← hexValue c)) * 16 + (← hexValue d)

/-- A piece of a string literal: a character, or a 16-bit unit given by its number. -/
inductive Piece
  | char (c : Char)
  | unit (n : Nat)

/-- The character after a backslash, except for the escape by number. -/
def escaped (c : Char) : Option Char :=
  if c = '"' || c = '\\' || c = '/' then some c
  else if c = 'b' then some (Char.ofNat 8)
  else if c = 'f' then some (Char.ofNat 12)
  else if c = 'n' then some '\n'
  else if c = 'r' then some '\r'
  else if c = 't' then some '\t'
  else none

/-- Reads a string up to its closing quote. -/
def readString : List Char → Option (List Piece × List Char)
  | [] => none
  | '"' :: rest => some ([], rest)
  | '\\' :: 'u' :: a :: b :: c :: d :: rest =>
    match hexFour a b c d with
    | some n => (readString rest).map fun (ps, rest) => (.unit n :: ps, rest)
    | none => none
  | '\\' :: c :: rest =>
    match escaped c with
    | some c => (readString rest).map fun (ps, rest) => (.char c :: ps, rest)
    | none => none
  | c :: rest =>
    if c.toNat < 32 || c == '\\' then none
    else (readString rest).map fun (ps, rest) => (.char c :: ps, rest)

/-- The text of the pieces. A unit of a surrogate pair needs the other one next to it. -/
def join : List Piece → Option (List Char)
  | [] => some []
  | .char c :: ps => (join ps).map (c :: ·)
  | .unit high :: .unit low :: ps =>
    if 0xD800 ≤ high && high ≤ 0xDBFF && 0xDC00 ≤ low && low ≤ 0xDFFF then
      (join ps).map (Char.ofNat (0x10000 + (high - 0xD800) * 0x400 + (low - 0xDC00)) :: ·)
    else if 0xD800 ≤ high && high ≤ 0xDFFF then none
    else (join (.unit low :: ps)).map (Char.ofNat high :: ·)
  | .unit n :: ps =>
    if 0xD800 ≤ n && n ≤ 0xDFFF then none else (join ps).map (Char.ofNat n :: ·)

/-- Whether a minus stands in front, and what is behind a sign. -/
def signPart : List Char → Bool × List Char
  | '-' :: rest => (true, rest)
  | '+' :: rest => (false, rest)
  | cs => (false, cs)

/-- The digits of an exponent after its mark, with a sign. -/
def exponentPart (cs : List Char) : Option (Int × List Char) :=
  let (negative, cs) := signPart cs
  let digits := cs.takeWhile Char.isDigit
  if digits.isEmpty then none
  else
    let n : Int := ofDigits digits
    some (if negative then -n else n, cs.dropWhile Char.isDigit)

/-- The digits behind a point, if there is one. -/
def fractionPart : List Char → Option (Option (List Char) × List Char)
  | '.' :: rest =>
    let digits := rest.takeWhile Char.isDigit
    if digits.isEmpty then none else some (some digits, rest.dropWhile Char.isDigit)
  | cs => some (none, cs)

/-- The exponent, if there is a mark. -/
def markedPart : List Char → Option (Option Int × List Char)
  | c :: rest =>
    if c == 'e' || c == 'E' then (exponentPart rest).map fun (n, cs) => (some n, cs)
    else some (none, c :: rest)
  | [] => some (none, [])

/-- Reads a number behind its sign. A number of several digits does not begin with zero, and digits
follow a point and an exponent mark. -/
def readUnsigned (negative : Bool) (cs : List Char) : Option (Json × List Char) := do
  let integer := cs.takeWhile Char.isDigit
  if integer.isEmpty || (integer.head? == some '0' && integer.length > 1) then none
  else
    let (fraction, cs) ← fractionPart (cs.dropWhile Char.isDigit)
    let (exponent, cs) ← markedPart cs
    let json := match Number.ofLiteral negative integer fraction exponent with
      | some n => Json.number n
      | none => .unreadable
    some (json, cs)

def readNumber : List Char → Option (Json × List Char)
  | '-' :: rest => readUnsigned true rest
  | cs => readUnsigned false cs

mutual

/-- Reads a document from the beginning of the text. -/
def readValue : (fuel : Nat) → List Char → Option (Json × List Char)
  | 0, _ => none
  | fuel + 1, cs =>
    match skipSpace cs with
    | '"' :: rest =>
      (readString rest).map fun (ps, rest) =>
        match join ps with
        | some text => (.string (.ofList text), rest)
        | none => (.unreadable, rest)
    | '[' :: rest =>
      match skipSpace rest with
      | ']' :: rest => some (.array [], rest)
      | _ => (readItems fuel rest).map fun (js, rest) => (.array js, rest)
    | '\x7b' :: rest =>
      match skipSpace rest with
      | '\x7d' :: rest => some (.object [], rest)
      | _ => (readFields fuel rest).map fun (fs, rest) =>
          match fs with
          | some fs => (.object fs, rest)
          | none => (.unreadable, rest)
    | 'n' :: 'u' :: 'l' :: 'l' :: rest => some (.null, rest)
    | 't' :: 'r' :: 'u' :: 'e' :: rest => some (.bool true, rest)
    | 'f' :: 'a' :: 'l' :: 's' :: 'e' :: rest => some (.bool false, rest)
    | cs => readNumber cs

/-- Reads the items of an array after its bracket or a comma. -/
def readItems : (fuel : Nat) → List Char → Option (List Json × List Char)
  | 0, _ => none
  | fuel + 1, cs =>
    match readValue fuel cs with
    | none => none
    | some (j, cs) =>
      match skipSpace cs with
      | ',' :: rest => (readItems fuel rest).map fun (js, rest) => (j :: js, rest)
      | ']' :: rest => some ([j], rest)
      | _ => none

/-- Reads the fields of an object after its brace or a comma. A key without a text spoils all of
them. -/
def readFields : (fuel : Nat) → List Char → Option (Option (List (String × Json)) × List Char)
  | 0, _ => none
  | fuel + 1, cs =>
    match skipSpace cs with
    | '"' :: rest =>
      match readString rest with
      | none => none
      | some (ps, cs) =>
        match skipSpace cs with
        | ':' :: rest =>
          match readValue fuel rest with
          | none => none
          | some (j, cs) =>
            let field := (join ps).map fun key => (String.ofList key, j)
            match skipSpace cs with
            | ',' :: rest =>
              (readFields fuel rest).map fun (fs, rest) =>
                (field.bind fun f => fs.map (f :: ·), rest)
            | '\x7d' :: rest => some (field.map ([·]), rest)
            | _ => none
        | _ => none
    | _ => none

end

/-- The document that a text holds, with nothing but space around it. -/
def ofChars (cs : List Char) : Option Json :=
  match readValue (2 * cs.length + 2) cs with
  | some (j, rest) => if (skipSpace rest).isEmpty then some j else none
  | none => none

def ofText (text : String) : Option Json :=
  ofChars text.toList

end ObjectVault.Json
