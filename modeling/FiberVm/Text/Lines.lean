/-!
# Lines of a byte stream

Lines end with a line feed, before which a carriage return does not count. They are read through a
buffer: a line that fills it is handed out in pieces, each a line of its own.
-/

set_option autoImplicit false

namespace FiberVm.Text

/-- The bytes that fit into the buffer. -/
def lineRoom : Nat := 4096

/-- The line without a carriage return at its end. -/
def withoutReturn (line : List UInt8) : List UInt8 :=
  if line.getLast? = some 0x0D then line.dropLast else line

/-- The first line and what follows it. A carriage return at the end of a full buffer waits for the
line feed that may follow. -/
def nextLine (bs : List UInt8) : List UInt8 × List UInt8 :=
  let front := bs.take lineRoom
  let line := front.takeWhile (· != 0x0A)
  if line.length < front.length then (withoutReturn line, bs.drop (line.length + 1))
  else if front.length < lineRoom then (line, [])
  else
    let line := withoutReturn line
    (line, bs.drop line.length)

/-- The lines of some bytes. `fuel` bounds their number. -/
def linesWithin : (fuel : Nat) → List UInt8 → List (List UInt8)
  | 0, _ => []
  | _, [] => []
  | fuel + 1, bs =>
    let (line, rest) := nextLine bs
    line :: linesWithin fuel rest

def lines (bs : List UInt8) : List (List UInt8) := linesWithin bs.length bs

end FiberVm.Text
