/-!
# The calendar

Every fourth year is a leap year, except for centuries that 400 does not divide. The rule is used
for all years, also those before it was made. Days are counted from the first day of 1970.
-/

set_option autoImplicit false

namespace FiberVm

def isLeapYear (y : Int) : Bool := y % 4 == 0 && (y % 100 != 0 || y % 400 == 0)

def daysIn (y : Int) (m : Nat) : Nat :=
  if m = 2 then if isLeapYear y then 29 else 28
  else if m = 4 ∨ m = 6 ∨ m = 9 ∨ m = 11 then 30
  else 31

/-- A day of the calendar. Months and days are counted from one. -/
structure Date where
  year : Int
  month : Nat
  day : Nat
deriving DecidableEq, Repr

namespace Date

def isValid (d : Date) : Bool :=
  decide (1 ≤ d.month ∧ d.month ≤ 12 ∧ 1 ≤ d.day ∧ d.day ≤ daysIn d.year d.month)

/-- Days in four hundred years, after which the calendar repeats. -/
def daysPerCycle : Int := 146097

/-- Days from the first of March of year 0 to the first day of 1970. -/
def marchToEpoch : Int := 719468

/-- The number of a day. Years are taken from March on, so that the leap day is their last. -/
def toDays (d : Date) : Int :=
  let y := if d.month ≤ 2 then d.year - 1 else d.year
  let m : Int := if d.month ≤ 2 then d.month + 9 else d.month - 3
  let inCycle := y % 400
  let inYear := (153 * m + 2) / 5 + d.day - 1
  y / 400 * daysPerCycle + (inCycle * 365 + inCycle / 4 - inCycle / 100 + inYear) - marchToEpoch

def ofDays (n : Int) : Date :=
  let n := n + marchToEpoch
  let rest := n % daysPerCycle
  let inCycle := (rest - rest / 1460 + rest / 36524 - rest / 146096) / 365
  let inYear := rest - (365 * inCycle + inCycle / 4 - inCycle / 100)
  let m := (5 * inYear + 2) / 153
  let month := if m < 10 then m + 3 else m - 9
  let year := n / daysPerCycle * 400 + inCycle
  { year := if month ≤ 2 then year + 1 else year
    month := month.toNat
    day := (inYear - (153 * m + 2) / 5 + 1).toNat }

end Date

end FiberVm
