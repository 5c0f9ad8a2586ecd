import FiberVm.Decimal.Binary64
import FiberVm.Text.Fields
import FiberVm.Text.Pad
import FiberVm.Time.Calendar

/-!
# Points in time

A point in time is a number of seconds since the start of 1970 and a fraction of a second, together
with the zone in which it is shown. Seconds are 64-bit words, and what lies beyond their range comes
out at its other end.
-/

set_option autoImplicit false

namespace FiberVm

inductive Zone
  /-- Universal time by its name. -/
  | universal
  /-- The zone of this machine, which keeps universal time. -/
  | here
  /-- Seconds by which the clocks are ahead of universal time. -/
  | ahead (seconds : Int)
deriving DecidableEq, Repr

namespace Zone

/-- Seconds by which the clocks are ahead of universal time. -/
def offset : Zone → Int
  | universal | here => 0
  | ahead seconds => seconds

/-- The zone with an offset written as a number. -/
def ofOffset (seconds : Int) : Zone := if seconds = 0 then here else ahead seconds

/-- Is this one of the zones that differ from universal time by full hours? There is one such zone
for every offset, while any other offset makes a zone of its own each time it is written. -/
def isHourly : Zone → Bool
  | ahead seconds => seconds % 3600 == 0 && -12 ≤ seconds / 3600 && seconds / 3600 ≤ 14
  | _ => true

def same (a b : Zone) : Bool := a == b && a.isHourly

/-- Zones in the order in which keys are shown. -/
def rank : Zone → Int
  | universal => -100000
  | here => -99999
  | ahead seconds => if isHourly (ahead seconds) then seconds else 100000

end Zone

structure Instant where
  /-- Whole seconds since the start of 1970. -/
  seconds : Int64
  /-- Nanoseconds in addition, fewer than a second. -/
  nanos : Nat := 0
  zone : Zone := .here
deriving DecidableEq, Repr

namespace Instant

/-- Seconds from the start of year 1 to the start of 1970. -/
def yearOneToEpoch : Int64 := 62135596800

/-- The start of year 1. -/
def zero : Instant := { seconds := -yearOneToEpoch, zone := .universal }

/-- Are two points the same second in the same zone? -/
def same (a b : Instant) : Bool :=
  a.nanos == b.nanos && a.seconds == b.seconds && a.zone.same b.zone

/-- The order in which points are shown: by fraction, then by seconds since the start of year 1,
then by zone. -/
def le (a b : Instant) : Bool :=
  if a.nanos ≠ b.nanos then decide (a.nanos < b.nanos)
  else if a.seconds ≠ b.seconds then
    decide (a.seconds + yearOneToEpoch < b.seconds + yearOneToEpoch)
  else decide (a.zone.rank ≤ b.zone.rank)

/-- An offset in hours and minutes. -/
def offsetText (offset : Int) : String :=
  let minutes := offset.natAbs / 60
  (if offset < 0 then "-" else "+")
    ++ Text.zeroFilled 2 (minutes / 60 : Nat) ++ Text.zeroFilled 2 (minutes % 60 : Nat)

/-- A fraction of a second, without zeros at its end. -/
def fractionText (nanos : Nat) : String :=
  if nanos = 0 then ""
  else
    let ds := (Text.zeroFilled 9 nanos).toList
    "." ++ String.ofList (Decimal.stripZeros ds).1

/-- A year, with a sign in front of at least four digits if it is negative. -/
def yearText (y : Int) : String :=
  (if y < 0 then "-" else "") ++ Text.zeroFilled 4 y.natAbs

/-- Seconds to the start of 1970 from the earliest second that can be shown, the start of March of
the year -292277022400. -/
def earliestToEpoch : Int := 9223372028741760000

/-- Whole seconds since the start of 1970 by the clocks of the zone, counted from the earliest
second that can be shown. -/
def clockSeconds (t : Instant) : Int :=
  (t.seconds.toInt + t.zone.offset + earliestToEpoch) % 0x10000000000000000 - earliestToEpoch

/-- Date, time of day, offset and zone. Without an offset the zone has a name, and otherwise the
offset stands for it. -/
def text (t : Instant) : String :=
  let s := t.clockSeconds
  let d := Date.ofDays (s / 86400)
  let two (n : Int) : String := Text.zeroFilled 2 n
  let day := s!"{yearText d.year}-{two d.month}-{two d.day}"
  let clock := s!"{two (s % 86400 / 3600)}:{two (s % 3600 / 60)}:{two (s % 60)}"
  let offset := offsetText t.zone.offset
  let zone := if t.zone.offset = 0 then "UTC" else offset
  s!"{day} {clock}{fractionText t.nanos} {offset} {zone}"

/-- The integer as a 64-bit word, or the least word if it does not fit. -/
def fitted (n : Int) : Int64 :=
  if -0x8000000000000000 ≤ n ∧ n < 0x8000000000000000 then Int64.ofInt n else Int64.minValue

/-- Adds nanoseconds, also negative ones, to a number of seconds. -/
def ofParts (seconds nanos : Int) : Instant :=
  { seconds := fitted seconds + Int64.ofInt (nanos / 1000000000)
    nanos := (nanos % 1000000000).toNat }

/-- The nearest number with 53 binary digits in front of zeros; halfway goes to the even digit. -/
def roundDigits (n : Nat) : Nat :=
  let unit := Nat.pow 2 (Nat.log2 n - 52)
  let low := n / unit
  let twice := 2 * (n % unit)
  let up := unit < twice ∨ (unit = twice ∧ low % 2 = 1)
  (if up then low + 1 else low) * unit

/-- Seconds since the start of 1970 as a float. The fraction times a billion is rounded to a float
before it is cut off. What is no number stands for the start of year 1. -/
def ofFloat (bits : UInt64) : Instant :=
  match Decimal.Binary64.ofBits bits with
  | .nan | .infinite _ => zero
  | .finite negative v =>
    let unit := Nat.pow 2 (-v.q).toNat
    let n := v.m * Nat.pow 2 v.q.toNat
    let seconds : Int := (n / unit : Nat)
    let nanos : Int := (roundDigits (n % unit * 1000000000) / unit : Nat)
    if negative then ofParts (-seconds) (-nanos) else ofParts seconds nanos

/-- An hour, for which one digit is enough. -/
def hour (cs : List Char) : Option (Nat × List Char) := Text.number 2 cs <|> Text.number 1 cs

/-- A fraction of a second in nanoseconds; zero where there is none. Further digits do not count. -/
def fraction (cs : List Char) : Nat × List Char :=
  match cs with
  | c :: rest =>
    let ds := rest.takeWhile Char.isDigit
    if (c = '.' ∨ c = ',') ∧ !ds.isEmpty then
      let nine := (ds ++ List.replicate 9 '0').take 9
      (Nat.ofDigitChars 10 nine 0, rest.dropWhile Char.isDigit)
    else (0, cs)
  | [] => (0, cs)

/-- A zone at the end of a text. -/
def zone? (cs : List Char) : Option Zone :=
  match cs with
  | ['Z'] => some .universal
  | c :: cs => do
    let (h, cs) ← Text.number 2 cs
    let (m, cs) ← Text.number 2 (← Text.mark ':' cs)
    let seconds : Int := ((h * 60 + m) * 60 : Nat)
    if !cs.isEmpty ∨ 24 < h ∨ 60 < m then none
    else if c = '+' then some (.ofOffset seconds)
    else if c = '-' then some (.ofOffset (-seconds))
    else none
  | [] => none

/-- Reads a date, a time of day and an offset. -/
def parse? (cs : List Char) : Option Instant := do
  let (y, cs) ← Text.number 4 cs
  let (month, cs) ← Text.number 2 (← Text.mark '-' cs)
  let (day, cs) ← Text.number 2 (← Text.mark '-' cs)
  let (h, cs) ← hour (← Text.mark 'T' cs)
  let (m, cs) ← Text.number 2 (← Text.mark ':' cs)
  let (s, cs) ← Text.number 2 (← Text.mark ':' cs)
  let (nanos, cs) := fraction cs
  let zone ← zone? cs
  let date : Date := ⟨y, month, day⟩
  if !date.isValid ∨ 23 < h ∨ 59 < m ∨ 59 < s then failure
  let clock : Int := (h * 60 + m) * 60 + s
  return {
    seconds := Int64.ofInt (date.toDays * 86400 + clock - zone.offset)
    nanos := nanos
    zone := zone }

end Instant

end FiberVm
