import FiberVm.Json.Window

/-!
# Reading JSON

A reader takes a value of one type off the front of an input, which it sees through a window. A
reader is given the value read so far: `null` leaves it as it is, and the members of a list are read
over the members it already has.

Tokens are read byte by byte, and a byte is spoken of as the character with its number.
-/

set_option autoImplicit false

namespace FiberVm.Json

/-- Reads a value from the front of the input. -/
abbrev Reader (α : Type) := StateT Window Option α

/-- The byte at the cursor, whether or not the window has to be refilled for it. -/
def here : Reader Char := do return (← get).look

/-- The next byte of the input; the null character is its end. -/
def peek : Reader Char := do
  modify Window.settle
  here

def pass : Reader Unit := modify (Window.advance 1)

/-- Refills the window, which needs an input whose end has not been found. -/
def more : Reader Unit := fun w => w.refill.map fun w => ((), w)

/-- Gives back the space before the cursor. -/
def release : Reader Unit := modify Window.release

/-- Blank space between tokens. -/
def isBlank (c : Char) : Bool := c == ' ' || c == '\t' || c == '\n' || c == '\r'

/-- Passes blank space and gives the byte behind it. `fuel` bounds its length. -/
def skipBlank : (fuel : Nat) → Reader Char
  | 0 => failure
  | fuel + 1 => do
    let c ← peek
    if isBlank c then
      pass
      skipBlank fuel
    else return c

/-- The first byte of the next token. -/
def next : Reader Char := do skipBlank (← get).budget

/-- The bytes of a kind at the cursor, put in front of those seen. `fuel` bounds their number. -/
def runFrom (p : Char → Bool) : (fuel : Nat) → (seen : List Char) → Reader (List Char)
  | 0, _ => failure
  | fuel + 1, seen => do
    let c ← peek
    if p c then
      pass
      runFrom p fuel (c :: seen)
    else return seen.reverse

def run (p : Char → Bool) : Reader (List Char) := do runFrom p (← get).budget []

/-- Passes a byte and expects a letter behind it. Where the window has to be refilled first, any
letter will do. -/
def letter (c : Char) : Reader Unit := do
  pass
  let d ← here
  if d = c then return ()
  else if d = '\x00' then more
  else failure

/-- The rest of a word, with the cursor at its first letter. -/
def word (letters : List Char) : Reader Unit := do
  letters.forM letter
  pass

def null : Reader Unit := word ['u', 'l', 'l']

/-- A value or `null`, which stands for a value given in advance. -/
def orNull {α : Type} (old : α) (read : Reader α) : Reader α := do
  if (← next) = 'n' then
    null
    return old
  else read

/-- The most digits that an integer may have. -/
def maxDigits : Nat := 19

/-- The integer of a run of digits, taken modulo 2^64. -/
def integerOf (negative : Bool) (ds : List Char) : Option Int :=
  if ds.isEmpty || maxDigits < ds.length then none
  else
    let n : Int := Nat.ofDigitChars 10 ds 0
    some (Int64.ofInt (if negative then -n else n)).toInt

/-- An integer. Zero stands alone, so that no digits follow it. -/
def integer : Reader Int := do
  let n ←
    match ← next with
    | '-' =>
      pass
      integerOf true (← run Char.isDigit)
    | '0' =>
      pass
      pure 0
    | _ => integerOf false (← run Char.isDigit)
  release
  return n

/-- Members of a list up to its closing bracket, each read over the old member in its place and put
in front of those seen. `fuel` bounds their number. -/
def members {α : Type} (read : α → Reader α) (zero : α) :
    (fuel : Nat) → (old seen : List α) → Reader (List α)
  | 0, _, _ => failure
  | fuel + 1, old, seen => do
    let x ← read (old.headD zero)
    match ← next with
    | ',' =>
      pass
      members read zero fuel old.tail (x :: seen)
    | ']' =>
      pass
      return (x :: seen).reverse
    | _ => failure

/-- A list; `null` is an empty one. -/
def list {α : Type} (read : α → Reader α) (zero : α) (old : List α) : Reader (List α) :=
  orNull [] do
    if (← next) ≠ '[' then failure
    pass
    if (← next) = ']' then
      pass
      return []
    members read zero (← get).budget old []

def colon : Reader Unit := do
  if (← next) = ':' then pass else failure

end FiberVm.Json
