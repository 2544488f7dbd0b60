import ObjectVault.Json.Basic
import ObjectVault.Decimal.Integer
import ObjectVault.Decimal.Shortest

namespace ObjectVault.Number
open ObjectVault.Decimal

/-- Takes digits into the number as long as it stays below `2^64`; the other digits are left. -/
def absorb (n : Nat) : List Char → Nat × List Char
  | [] => (n, [])
  | c :: rest =>
    let next := 10 * n + digitValue c
    if next < UInt64.size then absorb next rest else (n, c :: rest)

def power (exponent : Nat) : Float :=
  .ofScientific 1 false exponent

/-- Multiplies by a power of ten in floating point, in steps of at most `10^308`. There is no
result beyond the largest float. -/
def scale : (fuel : Nat) → Float → Int → Option Float
  | 0, _, _ => some 0
  | fuel + 1, x, exponent =>
    if 0 ≤ exponent then
      if exponent ≤ 308 then
        let y := x * power exponent.toNat
        if y.isInf then none else some y
      else if x == 0 then some x
      else none
    else if -308 ≤ exponent then some (x / power (-exponent).toNat)
    else if x == 0 then some x
    else scale fuel (x / power 308) (exponent + 308)

/-- The float of a literal: the leading digits that a 64-bit word holds, scaled by a power of ten.
The result may differ from the nearest float in its last bits. -/
def approximate (negative : Bool) (integer fraction : List Char) (exponent : Int) : Option Float :=
  let (n, dropped) := absorb 0 integer
  let (m, unused) := absorb n fraction
  let order := exponent + dropped.length - (fraction.length - unused.length : Nat)
  let magnitude :=
    if Int32.maxValue.toInt < exponent then (if m = 0 then some 0 else none)
    else if exponent < -Int32.maxValue.toInt then some 0
    else scale 4 (UInt64.ofNat m).toFloat order
  magnitude.map fun x => if negative then -x else x

/-- The value of a literal. A whole number without fraction and exponent stays whole where a 64-bit
word holds it, except that minus zero is a float. -/
def ofLiteral (negative : Bool) (integer : List Char) (fraction : Option (List Char))
    (exponent : Option Int) : Option Number :=
  let n := ofDigits integer
  let plain := fraction.isNone && exponent.isNone
  if plain && !negative && n < UInt64.size then some (.whole n)
  else if plain && negative && 0 < n && fitsInt64 (-n) then some (.whole (-n))
  else (approximate negative integer (fraction.getD []) (exponent.getD 0)).map .real

/-- Floats are positional from `10^-5` to below `10^16`, and the exponent carries its sign. -/
def style : FloatStyle :=
  ⟨.even, fun order => -5 ≤ order && order < 16, true, "null", "null"⟩

def chars : Number → List Char
  | .whole n => intChars n
  | .real x => style.chars x

end ObjectVault.Number
