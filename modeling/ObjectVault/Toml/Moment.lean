import ObjectVault.Decimal.Integer

namespace ObjectVault.Toml
open ObjectVault.Decimal

/-- A number of exactly so many digits that lies in a range. -/
def fixed (count low high : Nat) (cs : List Char) : Option (Nat × List Char) :=
  (readDigits (cs.take count)).bind fun n =>
    if (cs.take count).length = count && low ≤ n && n ≤ high then some (n, cs.drop count)
    else none

def behind (c : Char) : List Char → Option (List Char)
  | [] => none
  | d :: rest => if d == c then some rest else none

def isLeapYear (year : Nat) : Bool :=
  year % 4 == 0 && (year % 100 != 0 || year % 400 == 0)

def daysInMonth (year month : Nat) : Nat :=
  if month = 2 then (if isLeapYear year then 29 else 28)
  else if month = 4 || month = 6 || month = 9 || month = 11 then 30 else 31

def date (cs : List Char) : Option (List Char) := do
  let (year, cs) ← fixed 4 0 9999 cs
  let (month, cs) ← fixed 2 1 12 (← behind '-' cs)
  let (_, cs) ← fixed 2 1 (daysInMonth year month) (← behind '-' cs)
  return cs

/-- The rest behind a fraction of a second, if there is one. -/
def secondFraction : List Char → List Char
  | '.' :: c :: rest => if c.isDigit then rest.dropWhile Char.isDigit else '.' :: c :: rest
  | cs => cs

/-- The rest behind a time of the day. A minute may have a leap second. -/
def time (cs : List Char) : Option (List Char) := do
  let (_, cs) ← fixed 2 0 23 cs
  let (_, cs) ← fixed 2 0 59 (← behind ':' cs)
  let (_, cs) ← fixed 2 0 60 (← behind ':' cs)
  return secondFraction cs

def clockOffset (cs : List Char) : Option (List Char) := do
  let (_, cs) ← fixed 2 0 23 cs
  let (_, cs) ← fixed 2 0 59 (← behind ':' cs)
  return cs

/-- The rest behind the distance to universal time, which need not be there. -/
def offset : List Char → Option (List Char)
  | 'Z' :: rest => some rest
  | 'z' :: rest => some rest
  | '+' :: rest => clockOffset rest
  | '-' :: rest => clockOffset rest
  | cs => some cs

/-- The rest behind a date with a time or without. -/
def dateTime (cs : List Char) : Option (List Char) := do
  let afterDate ← date cs
  match afterDate with
  | c :: rest =>
    if c == 'T' || c == 't' || c == ' ' then
      match time rest with
      | some afterTime => offset afterTime
      | none => return afterDate
    else return afterDate
  | [] => return []

/-- The rest behind a date, a time or both. -/
def moment (cs : List Char) : Option (List Char) :=
  (dateTime cs).or (time cs)

end ObjectVault.Toml
