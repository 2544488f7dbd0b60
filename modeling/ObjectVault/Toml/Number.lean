import ObjectVault.Decimal.Float
import ObjectVault.Json.Reader

namespace ObjectVault.Toml
open ObjectVault.Decimal

def underscored (isDigit : Char → Bool) : List Char → List Char × List Char
  | [] => ([], [])
  | '_' :: c :: rest =>
    if isDigit c then
      let (digits, rest) := underscored isDigit rest
      (c :: digits, rest)
    else ([], '_' :: c :: rest)
  | c :: rest =>
    if isDigit c then
      let (digits, rest) := underscored isDigit rest
      (c :: digits, rest)
    else ([], c :: rest)

def digits (isDigit : Char → Bool) : List Char → Option (List Char × List Char)
  | [] => none
  | c :: rest => if isDigit c then some (underscored isDigit (c :: rest)) else none

/-- The digits of a decimal number, which has no zero in front of others. -/
def decimalDigits : List Char → Option (List Char × List Char)
  | '0' :: rest => some (['0'], rest)
  | cs => digits Char.isDigit cs

def sign : List Char → List Char × List Char
  | '+' :: rest => ([], rest)
  | '-' :: rest => (['-'], rest)
  | cs => ([], cs)

def isBinaryDigit (c : Char) : Bool :=
  c == '0' || c == '1'

def isOctalDigit (c : Char) : Bool :=
  '0' ≤ c && c ≤ '7'

def isHexDigit (c : Char) : Bool :=
  (Json.hexValue c).isSome

def based (base : Nat) (isDigit : Char → Bool) (cs : List Char) : Option (Int × List Char) :=
  (digits isDigit cs).map fun (ds, rest) =>
    (ds.foldl (fun n c => base * n + ((Json.hexValue c).getD 0 : Nat)) (0 : Nat), rest)

def wholeNumber : List Char → Option (Int × List Char)
  | '0' :: 'x' :: rest => based 16 isHexDigit rest
  | '0' :: 'o' :: rest => based 8 isOctalDigit rest
  | '0' :: 'b' :: rest => based 2 isBinaryDigit rest
  | cs =>
    let (minus, cs) := sign cs
    (decimalDigits cs).bind fun (ds, rest) => (readInt (minus ++ ds)).map (·, rest)

/-- The exponent of a float, with its letter. -/
def exponent : List Char → Option (List Char × List Char)
  | c :: rest =>
    if c == 'e' || c == 'E' then
      let (minus, rest) := sign rest
      (digits Char.isDigit rest).map fun (ds, rest) => ('e' :: minus ++ ds, rest)
    else none
  | [] => none

/-- The part of a float behind its whole digits: a fraction, an exponent, or both. -/
def fraction : List Char → Option (List Char × List Char)
  | '.' :: rest =>
    (digits Char.isDigit rest).map fun (ds, rest) =>
      match exponent rest with
      | some (e, rest) => ('.' :: ds ++ e, rest)
      | none => ('.' :: ds, rest)
  | cs => exponent cs

/-- A float, which must not be too large to be one. -/
def float (cs : List Char) : Option (Float × List Char) :=
  let (minus, cs) := sign cs
  match cs with
  | 'i' :: 'n' :: 'f' :: rest => (readFloat (minus ++ ['i', 'n', 'f'])).map (·, rest)
  | 'n' :: 'a' :: 'n' :: rest => (readFloat ['n', 'a', 'n']).map (·, rest)
  | cs => do
    let (whole, rest) ← decimalDigits cs
    let (part, rest) ← fraction rest
    let x ← readFloat (minus ++ whole ++ part)
    if x.isInf && 0 < x then none else some (x, rest)

end ObjectVault.Toml
