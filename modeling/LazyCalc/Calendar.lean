/-!
Dates of the proleptic Gregorian calendar, years -262143 to 262142, and the day count that orders
them. A date is a checked year, month and day; `Date.dayNumber` counts the days since
0001-01-01 and `Date.ofDayNumber?` reads such a count back.
-/

namespace LazyCalc

def isLeap (year : Int) : Bool :=
  year % 4 == 0 && (year % 100 != 0 || year % 400 == 0)

def monthLengths (leap : Bool) : List Nat :=
  [31, if leap then 29 else 28, 31, 30, 31, 30, 31, 31, 30, 31, 30, 31]

def daysInMonth (leap : Bool) (month : Nat) : Nat :=
  (monthLengths leap).getD (month - 1) 0

def firstYear : Int := -262143

def lastYear : Int := 262142

structure Date where
  year : Int
  month : Nat
  day : Nat
  year_mem : firstYear ≤ year ∧ year ≤ lastYear
  month_mem : 1 ≤ month ∧ month ≤ 12
  day_mem : 1 ≤ day ∧ day ≤ daysInMonth (isLeap year) month
  deriving DecidableEq

namespace Date

def ofCivil? (year : Int) (month day : Nat) : Option Date :=
  if hy : firstYear ≤ year ∧ year ≤ lastYear then
    if hm : 1 ≤ month ∧ month ≤ 12 then
      if hd : 1 ≤ day ∧ day ≤ daysInMonth (isLeap year) month then
        some ⟨year, month, day, hy, hm, hd⟩
      else none
    else none
  else none

def daysBeforeYear (year : Int) : Int :=
  365 * (year - 1) + (year - 1) / 4 - (year - 1) / 100 + (year - 1) / 400

def daysBeforeMonth (leap : Bool) (month : Nat) : Nat :=
  ((monthLengths leap).take (month - 1)).foldl (· + ·) 0

def dayNumber (d : Date) : Int :=
  daysBeforeYear d.year + daysBeforeMonth (isLeap d.year) d.month + (d.day - 1 : Nat)

/-- The year that a day number lies in. 400 years have 146097 days, so the first guess is off by
at most one year. -/
def yearOfDay (n : Int) : Int :=
  let guess := 400 * n / 146097 + 1
  if n < daysBeforeYear guess then guess - 1
  else if daysBeforeYear (guess + 1) ≤ n then guess + 1
  else guess

def monthAndDay : (lengths : List Nat) → (month dayOfYear : Nat) → Nat × Nat
  | [], month, r => (month, r + 1)
  | l :: ls, month, r => if r < l then (month, r + 1) else monthAndDay ls (month + 1) (r - l)

def ofDayNumber? (n : Int) : Option Date :=
  let year := yearOfDay n
  let (month, day) := monthAndDay (monthLengths (isLeap year)) 1 (n - daysBeforeYear year).toNat
  ofCivil? year month day

def shift? (d : Date) (days : Int) : Option Date :=
  ofDayNumber? (d.dayNumber + days)

def dayMillis : Int := 86400000

/-- A shift as machine words carry it: the days as a 64-bit integer, then as a time span that a
64-bit number of milliseconds holds, then as a 32-bit number of days. -/
def shiftByWords? (d : Date) (days : Int) : Option Date :=
  if -0x8000000000000000 ≤ days ∧ days < 0x8000000000000000 then
    if (days * dayMillis).natAbs < 0x8000000000000000 then
      if -0x80000000 ≤ days ∧ days < 0x80000000 then d.shift? days else none
    else none
  else none

def daysSince (d e : Date) : Int :=
  d.dayNumber - e.dayNumber

def order (d e : Date) : Ordering :=
  compare d.dayNumber e.dayNumber

def padded (width n : Nat) : String :=
  let digits := toString n
  "".pushn '0' (width - digits.length) ++ digits

/-- Years 0 to 9999 have four digits; any other has a sign and at least four digits. -/
def yearText (year : Int) : String :=
  if year < 0 then "-" ++ padded 4 year.natAbs
  else if year ≤ 9999 then padded 4 year.natAbs
  else "+" ++ padded 4 year.natAbs

def text (d : Date) : String :=
  yearText d.year ++ "-" ++ padded 2 d.month ++ "-" ++ padded 2 d.day

end Date

end LazyCalc
