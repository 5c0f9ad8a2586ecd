/-!
# Time

The machine's time is a count of nanoseconds that moves when the machine sleeps, and by a fixed
amount with every instruction if the host asks for it. It may also pass on its own, between one look
at the clock and the next. A single sleep is a signed 64-bit number of nanoseconds; a longer wait is
cut to the longest one.
-/

set_option autoImplicit false

namespace FiberVm

/-- The longest sleep in milliseconds that 64 bits of nanoseconds hold. -/
def maxMillis : Int64 := 9223372036854

/-- Milliseconds as nanoseconds. Above `maxMillis` the longest sleep is meant; the product is
taken modulo 2^64. -/
def millis (ms : Int64) : Int64 :=
  (if maxMillis < ms then maxMillis else ms) * 1000000

/-- The nearest duration that 64 bits hold. -/
def clampDuration (d : Int) : Int :=
  max (-0x8000000000000000) (min d 0x7FFFFFFFFFFFFFFF)

/-- A clock that the machine moves, and that may run on by itself. -/
structure Clock where
  /-- The current reading in nanoseconds. -/
  now : Int := 0
  /-- Nanoseconds that pass before each instruction. -/
  perStep : Int := 0
  /-- The sleeps so far in whole milliseconds, newest first. -/
  slept : List Int := []
  /-- Nanoseconds that have passed on their own when the clock is looked at for the `n`-th time. -/
  lapses : Nat → Nat := fun _ => 0
  /-- The number of looks at the clock so far. -/
  looks : Nat := 0

namespace Clock

/-- Moves the clock by `d` nanoseconds. -/
def advance (c : Clock) (d : Int) : Clock := { c with now := c.now + d }

/-- Reads the clock anew. -/
def look (c : Clock) : Clock := { c with now := c.now + c.lapses c.looks, looks := c.looks + 1 }

/-- Moves the clock by the time of one instruction. -/
def tick (c : Clock) : Clock := c.advance c.perStep

/-- Sleeps for `d` nanoseconds; nothing happens unless `d` is positive. -/
def sleep (c : Clock) (d : Int) : Clock :=
  if 0 < d then { c with now := c.now + d, slept := d.tdiv 1000000 :: c.slept } else c

end Clock

end FiberVm
