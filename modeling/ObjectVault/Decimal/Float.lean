import ObjectVault.Decimal.Integer
import ObjectVault.Decimal.Nearest

namespace ObjectVault.Decimal

/-- The texts of what is no finite number, in lower case. -/
def specialFloat (cs : List Char) : Option Float :=
  let name := cs.map Char.toLower
  if name = "inf".toList || name = "infinity".toList then some (.ofBits (.ofNat infinityBits))
  else if name = "nan".toList then some (0 / 0)
  else none

/-- An exponent after its mark: digits with an optional sign. -/
def readExponent : List Char → Option Int
  | [] => some 0
  | mark :: rest =>
    if mark == 'e' || mark == 'E' then
      match rest with
      | '-' :: digits => (readDigits digits).map fun n => -(n : Int)
      | _ => (readNat rest).map Int.ofNat
    else none

/-- Digits with a point among, before or behind them, and perhaps an exponent. -/
def readMagnitude (cs : List Char) : Option Float :=
  let integer := cs.takeWhile Char.isDigit
  let (fraction, rest) := match cs.dropWhile Char.isDigit with
    | '.' :: rest => (rest.takeWhile Char.isDigit, rest.dropWhile Char.isDigit)
    | rest => ([], rest)
  if integer.isEmpty && fraction.isEmpty then none
  else (readExponent rest).map fun exponent =>
    nearestScaled (ofDigits (integer ++ fraction)) (exponent - fraction.length)

/-- The float nearest to the number that a text gives, with an optional sign. -/
def readFloat (cs : List Char) : Option Float :=
  let unsigned (cs : List Char) := (readMagnitude cs).or (specialFloat cs)
  match cs with
  | '-' :: rest => (unsigned rest).map fun x => -x
  | '+' :: rest => unsigned rest
  | _ => unsigned cs

end ObjectVault.Decimal
