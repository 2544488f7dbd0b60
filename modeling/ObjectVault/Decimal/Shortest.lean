import ObjectVault.Decimal.Integer

namespace ObjectVault.Decimal

/-- A positive float as `mantissa · 2 ^ exponent`. -/
structure Binary where
  mantissa : Nat
  exponent : Int
deriving DecidableEq

/-- A positive number as `digits · 10 ^ exponent`. -/
structure Scaled where
  digits : Nat
  exponent : Int
deriving DecidableEq

/-- The bit of a float that says whether it is negative. -/
def signBit : Nat := 1 <<< 63

/-- The bit in front of the fraction, which the float does not hold. -/
def leadingBit : Nat := 1 <<< 52

def Binary.ofFloat (x : Float) : Binary :=
  let bits : Nat := x.toBits.toNat % signBit
  let fraction : Nat := bits % leadingBit
  let order : Nat := bits / leadingBit
  if order = 0 then ⟨fraction, -1074⟩ else ⟨fraction + leadingBit, (order : Int) - 1075⟩

/-- Which of two equally near decimals is taken. -/
inductive Tie
  | up
  | even
deriving DecidableEq

/-- The number of decimal places to the left of the point, less one, of a positive quotient. -/
def decimalOrder (num den : Nat) : Int :=
  if den ≤ num then ((natDigits (num / den)).length : Int) - 1
  else -((natDigits ((den + num - 1) / num - 1)).length : Int)

namespace Binary

/-- A quarter of the last bit of the float, in the unit in which it is compared with a grid. -/
def quarter (x : Binary) (step : Int) : Nat :=
  Nat.pow 10 (-step).toNat <<< (x.exponent - 2).toNat

/-- The step of the grid, in the same unit. -/
def cell (x : Binary) (step : Int) : Nat :=
  Nat.pow 10 step.toNat <<< (2 - x.exponent).toNat

/-- The float in the same unit. -/
def value (x : Binary) (step : Int) : Nat :=
  4 * x.mantissa * x.quarter step

/-- How far below the float numbers read back as it: half a bit, or a quarter where the float is the
least of its order. -/
def below (x : Binary) (step : Int) : Nat :=
  if x.mantissa = leadingBit && x.exponent > -1074 then x.quarter step else 2 * x.quarter step

/-- Whether the decimal at a place of the grid reads back as the float. Above it the numbers that do
end half a bit away; the ends count if the mantissa is even. -/
def inside (x : Binary) (step : Int) (d : Nat) : Bool :=
  let lo := x.value step - x.below step
  let hi := x.value step + 2 * x.quarter step
  let place := d * x.cell step
  (lo < place && place < hi) || (x.mantissa % 2 == 0 && (lo == place || place == hi))

/-- The decimal on the grid of step `10 ^ step` that reads back as the float and is nearest to it.
-/
def onGrid (x : Binary) (tie : Tie) (step : Int) : Option Nat :=
  let d := x.value step / x.cell step
  let down := x.value step - d * x.cell step
  let up := (d + 1) * x.cell step - x.value step
  match x.inside step d && d != 0, x.inside step (d + 1) with
  | false, false => none
  | true, false => some d
  | false, true => some (d + 1)
  | true, true =>
    if down < up then some d
    else if up < down then some (d + 1)
    else match tie with
      | .up => some (d + 1)
      | .even => some (if d % 2 = 0 then d else d + 1)

/-- The first grid, from coarse to fine, on which a decimal reads back. -/
def firstGrid (x : Binary) (tie : Tie) : (fuel : Nat) → (step : Int) → Option Scaled
  | 0, _ => none
  | fuel + 1, step =>
    match x.onGrid tie step with
    | some d => some ⟨d, step⟩
    | none => firstGrid x tie fuel (step - 1)

/-- The fewest digits that read back as the float, and of these decimals the nearest one. Seventeen
digits are always enough. -/
def shortest (x : Binary) (tie : Tie) : Scaled :=
  let order := decimalOrder (x.mantissa <<< x.exponent.toNat) (1 <<< (-x.exponent).toNat)
  (x.firstGrid tie 17 order).getD ⟨x.mantissa, x.exponent⟩

end Binary

/-- The digits without zeros at the end, and the place of the point, counted from the first digit.
-/
def Scaled.significand (x : Scaled) : List Char × Int :=
  let all := natDigits x.digits
  ((all.reverse.dropWhile (· == '0')).reverse, all.length + x.exponent)

/-- How floats are written: which of two equally near decimals is taken, from which order of
magnitude to which the number is positional, and the texts of what is no number. -/
structure FloatStyle where
  tie : Tie
  positional : Int → Bool
  plusSign : Bool
  notANumber : String
  infinite : String

/-- The digits with the point after `point` of them, at least one on both sides. -/
def positionalChars (digits : List Char) (point : Int) : List Char :=
  if point ≤ 0 then '0' :: '.' :: (List.replicate (-point).toNat '0' ++ digits)
  else
    let whole := point.toNat
    let places := digits.drop whole
    digits.take whole ++ List.replicate (whole - digits.length) '0' ++
      '.' :: (if places.isEmpty then ['0'] else places)

/-- One digit before the point, the others behind it, and the power of ten. -/
def scientificChars (plusSign : Bool) (digits : List Char) (order : Int) : List Char :=
  let places := digits.drop 1
  digits.take 1 ++ (if places.isEmpty then [] else '.' :: places) ++
    'e' :: ((if plusSign && 0 ≤ order then ['+'] else []) ++ intChars order)

/-- The shortest text that reads back as the float, in the given style. -/
def FloatStyle.chars (style : FloatStyle) (x : Float) : List Char :=
  if x.isNaN then style.notANumber.toList
  else
    let magnitude :=
      if x.isInf then style.infinite.toList
      else if x == 0 then ['0', '.', '0']
      else
        let (digits, point) := ((Binary.ofFloat x).shortest style.tie).significand
        if style.positional (point - 1) then positionalChars digits point
        else scientificChars style.plusSign digits (point - 1)
    if x.toBits.toNat < signBit then magnitude else '-' :: magnitude

end ObjectVault.Decimal
