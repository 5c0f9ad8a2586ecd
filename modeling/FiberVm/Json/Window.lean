/-!
# A window on an input

An input is not held as a whole. A reader sees it through a window of 512 bytes, which is refilled
where the reader finds nothing, and made twice as large if the last refill used all of it. What has
not been filled is zero, so a zero byte in the input looks like the end of what was read: it makes
the reader refill the window, and what follows that byte in the window is overwritten.

Positions before the cursor are only counted. They take up space in the window until they are given
back by `release`.
-/

set_option autoImplicit false

namespace FiberVm.Json

/-- What a reader sees of an input. -/
structure Window where
  /-- The bytes from the cursor to the end of the window. The last of them is zero. -/
  ahead : List UInt8
  /-- How many places of the window lie before the cursor. -/
  behind : Nat
  /-- How many of the bytes ahead were read from the input. -/
  fresh : Nat
  /-- The size that the window had when it was made. -/
  size : Nat
  /-- Did the last refill use all of the window? -/
  full : Bool
  /-- Has a refill found nothing left? -/
  ended : Bool
  /-- The input that has not been read yet. -/
  rest : List UInt8
  /-- More than the number of bytes that the cursor can pass. It bounds every loop of a reader. -/
  budget : Nat
deriving Repr

namespace Window

def initialSize : Nat := 512

def ofBytes (bs : List UInt8) : Window :=
  { ahead := List.replicate initialSize 0
    behind := 0
    fresh := 0
    size := initialSize
    full := false
    ended := false
    rest := bs
    budget := 4 * (bs.length + initialSize) }

/-- The byte at the cursor, zero where there is none. -/
def byte (w : Window) : UInt8 := w.ahead.headD 0

/-- The byte at the cursor as a character. -/
def look (w : Window) : Char := Char.ofUInt8 w.byte

/-- Moves the cursor past a number of bytes. -/
def advance (n : Nat) (w : Window) : Window :=
  { w with ahead := w.ahead.drop n, behind := w.behind + n, fresh := w.fresh - n }

/-- Puts `width` places before the cursor instead of the next `n` bytes. -/
def replace (n width : Nat) (w : Window) : Window :=
  { w with ahead := w.ahead.drop n, behind := w.behind + width, fresh := w.fresh - n }

/-- Gives back the space before the cursor. -/
def release (w : Window) : Window := { w with behind := 0 }

/-- The window made twice as large, if it is full. -/
def enlarge (w : Window) : Window :=
  if w.full then
    let room := 2 * w.size - w.behind
    { w with
      ahead := w.ahead.take room ++ List.replicate (room - w.ahead.length) 0
      size := 2 * w.size }
  else w

/-- Reads more of the input behind those bytes ahead that were read and are not zero. There is no
result once the end of the input has been found. -/
def refill (w : Window) : Option Window :=
  if w.ended then none
  else
    let w := w.enlarge
    let kept := (w.ahead.take w.fresh).takeWhile (· != 0)
    let room := w.ahead.length - kept.length - 1
    let new := w.rest.take room
    let used := kept.length + new.length
    some
      { w with
        ahead := kept ++ new ++ (w.ahead.dropLast.drop used) ++ [0]
        fresh := used
        full := new.length == room
        ended := w.rest.isEmpty
        rest := w.rest.drop room }

/-- Refills the window while `lacking` says so and more can be read. `fuel` bounds the number of
times. -/
def refillWhile (lacking : Window → Bool) : (fuel : Nat) → Window → Window
  | 0, w => w
  | fuel + 1, w =>
    if lacking w then
      match w.refill with
      | some w => refillWhile lacking fuel w
      | none => w
    else w

/-- The window with a byte at the cursor, unless nothing is left. -/
def settle (w : Window) : Window := w.refillWhile (fun w => w.byte == 0) w.budget

/-- The window with more than `n` bytes ahead, if that many are left. -/
def reach (n : Nat) (w : Window) : Window := w.refillWhile (fun w => w.fresh ≤ n) w.budget

end Window

end FiberVm.Json
