import FiberVm.Json.Reader

/-!
# Passing over JSON

A value that is not asked for is passed over without a look inside: an object or a list up to the
bracket that closes it, a text up to its closing quote, a number as far as its characters go. What
stands before the value and starts none is passed over too.
-/

set_option autoImplicit false

namespace FiberVm.Json

/-- The most levels to which lists and objects may be nested. -/
def maxDepth : Nat := 10000

/-- Passes a text up to its closing quote. `fuel` bounds its length. -/
def skipText : (fuel : Nat) → Reader Unit
  | 0 => failure
  | fuel + 1 => do
    match ← peek with
    | '"' => pass
    | '\x00' => failure
    | '\\' =>
      pass
      if (← here) = '\x00' then more
      pass
      skipText fuel
    | _ =>
      pass
      skipText fuel

/-- Passes everything up to the bracket that closes `count` open ones of a kind. Brackets of both
kinds count for the depth, of which `room` levels are left. `fuel` bounds the length. -/
def skipNested (opening closing : Char) : (fuel : Nat) → (room : Int) → (count : Nat) → Reader Unit
  | 0, _, _ => failure
  | fuel + 1, room, count => do
    let c ← peek
    if c = '\x00' then failure
    pass
    if c = '"' then
      skipText (← get).budget
      skipNested opening closing fuel room count
    else if c = '{' ∨ c = '[' then
      if room ≤ 0 then failure
      skipNested opening closing fuel (room - 1) (if c = opening then count + 1 else count)
    else if c = closing ∧ count ≤ 1 then return ()
    else if c = '}' ∨ c = ']' then
      skipNested opening closing fuel (room + 1) (if c = closing then count - 1 else count)
    else skipNested opening closing fuel room count

/-- The characters that numbers consist of. -/
def isNumeral (c : Char) : Bool :=
  c.isDigit || c == '.' || c == 'e' || c == 'E' || c == '+' || c == '-'

/-- Passes a number, with the cursor at one of its characters. Where the window has to be refilled,
the number is taken to start at `mark`, a place before the cursor. `fuel` bounds its length. -/
def skipNumber : (fuel : Nat) → (mark : Window) → Reader Unit
  | 0, _ => failure
  | fuel + 1, mark => do
    pass
    let c ← here
    if isNumeral c then skipNumber fuel mark
    else if c = '\x00' then
      match mark.refill with
      | some w =>
        set w
        skipNumber fuel w
      | none => return ()
    else return ()

/-- Passes what stands before a value, and the value. `mark` is the place where this began, or where
the window was refilled last. `fuel` bounds the length of what stands before. -/
def skipFrom (room : Nat) : (fuel : Nat) → (mark : Window) → Reader Unit
  | 0, _ => failure
  | fuel + 1, mark => do
    let w ← get
    let mark := if w.byte = 0 then w.settle else mark
    match ← peek with
    | '\x00' => failure
    | '{' =>
      pass
      skipNested '{' '}' w.budget (room - 1) 1
    | '[' =>
      pass
      skipNested '[' ']' w.budget (room - 1) 1
    | '"' =>
      pass
      skipText w.budget
    | 't' => word ['r', 'u', 'e']
    | 'f' => word ['a', 'l', 's', 'e']
    | 'n' => null
    | c =>
      if c == '-' || c.isDigit then skipNumber w.budget mark
      else
        pass
        skipFrom room fuel mark

/-- Passes one value, in which `room` levels of nesting are left. -/
def skipValue (room : Nat) : Reader Unit := do
  let w ← get
  skipFrom room w.budget w

end FiberVm.Json
