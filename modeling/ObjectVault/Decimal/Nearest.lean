namespace ObjectVault.Decimal

/-- The bits of the infinite float above all others. -/
def infinityBits : Nat :=
  0x7FF <<< 52

/-- The quotient rounded to the nearest integer, a half to the even one. -/
def roundHalfEven (num den : Nat) : Nat :=
  let q := num / den
  let r := num % den
  if 2 * r < den || (2 * r == den && q % 2 == 0) then q else q + 1

/-- The largest power of two, by its exponent, that a positive quotient reaches. -/
def binaryOrder (num den : Nat) : Int :=
  let guess : Int := (num.log2 : Int) - den.log2
  if den <<< guess.toNat ≤ num <<< (-guess).toNat then guess else guess - 1

/-- The float nearest to a quotient of natural numbers; of two equally near ones that with the even
last bit. From half a unit above the largest finite float on it is infinite. -/
def nearest (num den : Nat) : Float :=
  if num = 0 then 0
  else
    let unit := max (binaryOrder num den - 52) (-1074)
    let steps := roundHalfEven (num <<< (-unit).toNat) (den <<< unit.toNat)
    .ofBits (.ofNat (min ((unit + 1074).toNat <<< 52 + steps) infinityBits))

/-- The float nearest to `digits · 10 ^ exponent`. A number that is certainly beyond the largest or
below the least float is told by its size alone: ten is more than eight. -/
def nearestScaled (digits : Nat) (exponent : Int) : Float :=
  if digits = 0 then 0
  else if 0 ≤ exponent then
    if 400 < exponent then .ofBits (.ofNat infinityBits)
    else nearest (digits * Nat.pow 10 exponent.toNat) 1
  else if (digits.log2 + 1 : Int) + 3 * exponent < -1080 then 0
  else nearest digits (Nat.pow 10 (-exponent).toNat)

end ObjectVault.Decimal
