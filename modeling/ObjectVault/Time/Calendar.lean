import ObjectVault.Decimal.Integer

namespace ObjectVault.Time
open ObjectVault.Decimal

/-- A day of the calendar. Months count from one. -/
structure Date where
  year : Int
  month : Nat
  day : Nat

/-- The days before a month of a year that begins in March. -/
def daysBeforeMonth (month : Nat) : Nat :=
  (153 * month + 2) / 5

/-- The years before a day of a period of four hundred years: a year has a day more if it is the
fourth one, but not the hundredth. -/
def yearsBefore (day : Nat) : Nat :=
  (day - day / 1460 + day / 36524 - day / 146096) / 365

/-- The date that lies so many days after the first of January 1970. Years are taken to begin in
March, so that an additional day is the last one of its year. -/
def Date.ofDays (days : Int) : Date :=
  let shifted := days + 719468
  let period := shifted.fdiv 146097
  let dayOfPeriod := (shifted.fmod 146097).toNat
  let years := yearsBefore dayOfPeriod
  let dayOfYear := dayOfPeriod - (365 * years + years / 4 - years / 100)
  let month := (5 * dayOfYear + 2) / 153
  let late := month ≥ 10
  { year := period * 400 + years + (if late then 1 else 0)
    month := if late then month - 9 else month + 3
    day := dayOfYear - daysBeforeMonth month + 1 }

def weekdays : List String :=
  ["Sunday", "Monday", "Tuesday", "Wednesday", "Thursday", "Friday", "Saturday"]

def months : List String :=
  ["Jan", "Feb", "Mar", "Apr", "May", "Jun", "Jul", "Aug", "Sep", "Oct", "Nov", "Dec"]

/-- The day of the week. The first of January 1970 was a Thursday. -/
def weekday (days : Int) : String :=
  weekdays.getD ((days + 4).fmod 7).toNat ""

def Date.monthName (date : Date) : String :=
  months.getD (date.month - 1) ""

/-- A number with zeros in front up to a width. -/
def zeroPadded (width n : Nat) : String :=
  let digits := natDigits n
  .ofList (List.replicate (width - digits.length) '0' ++ digits)

/-- A year has four digits; one that needs more or lies before the year zero has a sign. -/
def yearText (year : Int) : String :=
  let digits := zeroPadded 4 year.natAbs
  if year < 0 then "-" ++ digits else if year > 9999 then "+" ++ digits else digits

/-- A moment of a day of the calendar. -/
structure Moment where
  days : Int
  microseconds : Nat

/-- The moment that lies so many microseconds after the beginning of 1970. -/
def Moment.ofMicroseconds (microseconds : Int) : Moment :=
  ⟨microseconds.fdiv 86400000000, (microseconds.fmod 86400000000).toNat⟩

namespace Moment

def hour (m : Moment) : String :=
  zeroPadded 2 (m.microseconds / 3600000000)

def minute (m : Moment) : String :=
  zeroPadded 2 (m.microseconds / 60000000 % 60)

def second (m : Moment) : String :=
  zeroPadded 2 (m.microseconds / 1000000 % 60)

/-- The moment as records hold it, to the microsecond. -/
def stamp (m : Moment) : String :=
  let date := Date.ofDays m.days
  yearText date.year ++ "-" ++ zeroPadded 2 date.month ++ "-" ++ zeroPadded 2 date.day ++ "T" ++
    m.hour ++ ":" ++ m.minute ++ ":" ++ m.second ++ "." ++
    zeroPadded 6 (m.microseconds % 1000000) ++ "Z"

/-- The moment as it is shown, to the minute. -/
def shown (m : Moment) : String :=
  let date := Date.ofDays m.days
  weekday m.days ++ ", " ++ zeroPadded 2 date.day ++ ". " ++ date.monthName ++ " " ++
    yearText date.year ++ " " ++ m.hour ++ ":" ++ m.minute

end Moment
end ObjectVault.Time
