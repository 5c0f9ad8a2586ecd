import FiberVm.Json.Reader
import FiberVm.Text.Utf8

/-!
# Reading JSON texts

An escape by code stands for one 16-bit unit: two units that form a surrogate pair are one
character, and a unit that is half of no pair is the replacement character. The four digits of a
code are four bytes, and a byte that is no digit counts as zero.

The window keeps the decoded text in the place of the written one, so an escape takes up as much of
it as the character that it stands for.
-/

set_option autoImplicit false

namespace FiberVm.Json

/-- The value of a hexadecimal digit; other characters count as zero. -/
def hexValue (c : Char) : Nat :=
  if '0' ≤ c ∧ c ≤ '9' then c.toNat - '0'.toNat
  else if 'a' ≤ c ∧ c ≤ 'f' then c.toNat - 'a'.toNat + 10
  else if 'A' ≤ c ∧ c ≤ 'F' then c.toNat - 'A'.toNat + 10
  else 0

/-- The number of bytes that write a unit. -/
def unitWidth : Nat := 4

/-- The unit that is written at a place ahead of the cursor. -/
def unitAt (place : Nat) (w : Window) : Nat :=
  ((w.ahead.drop place).take unitWidth).foldl (fun n b => n * 16 + hexValue (Char.ofUInt8 b)) 0

/-- The character that a letter after a backslash stands for. -/
def escape? : Char → Option Char
  | '"' => some '"'
  | '\\' => some '\\'
  | '/' => some '/'
  | 'b' => some '\x08'
  | 'f' => some '\x0c'
  | 'n' => some '\n'
  | 'r' => some '\r'
  | 't' => some '\t'
  | _ => none

def isHigh (u : Nat) : Bool := decide (0xD800 ≤ u ∧ u < 0xDC00)

/-- Does a unit close a surrogate pair? -/
def isLow (u : Nat) : Bool := decide (0xDC00 ≤ u ∧ u < 0xE000)

def isSurrogate (u : Nat) : Bool := isHigh u || isLow u

def ofPair (u v : Nat) : Char := Char.ofNat (0x10000 + (u - 0xD800) * 0x400 + (v - 0xDC00))

/-- Puts a character into the place of an escape, of which the backslash has been passed and `n`
bytes have not. -/
def substitute (n : Nat) (c : Char) : Reader Char := do
  modify (Window.replace n (c.utf8Size - 1))
  return c

/-- An escape by code, with the cursor at the letter `u`. -/
def codeEscape : Reader Char := do
  modify (Window.reach 5)
  let w ← get
  if w.fresh ≤ 5 then failure
  let u := unitAt 1 w
  if !isSurrogate u then substitute 5 (Char.ofNat u)
  else
    modify (Window.reach 11)
    let w ← get
    let v := unitAt 7 w
    if 11 < w.fresh && (w.ahead.drop 5).take 2 == [0x5C, 0x75] && isHigh u && isLow v then
      substitute 11 (ofPair u v)
    else substitute 5 '\ufffd'

/-- An escape, with the cursor at its backslash. -/
def escape : Reader Char := do
  pass
  match ← peek with
  | 'u' => codeEscape
  | c =>
    let e ← escape? c
    substitute 1 e

/-- A character of several bytes. A byte that belongs to none is read as the replacement
character. -/
def wideChar : Reader Char := do
  let isShort (w : Window) : Bool := !Text.isWhole (w.ahead.take 5).dropLast
  modify fun w => w.refillWhile isShort w.budget
  let w ← get
  if isShort w then failure
  let (c, n) := Text.firstChar w.ahead
  modify (Window.replace n c.utf8Size)
  return c

/-- The bytes of a text up to its closing quote, put in front of those seen. Unless `exact` is set,
bytes that belong to no character are replaced. `fuel` bounds their number. -/
def textFrom (exact : Bool) : (fuel : Nat) → (seen : List UInt8) → Reader (List UInt8)
  | 0, _ => failure
  | fuel + 1, seen => do
    let put (c : Char) : List UInt8 := (String.utf8EncodeChar c).reverse ++ seen
    match ← peek with
    | '"' =>
      pass
      return seen.reverse
    | '\\' => textFrom exact fuel (put (← escape))
    | '\x00' => failure
    | c =>
      if c.toNat < 0x80 || exact then
        pass
        textFrom exact fuel (c.toNat.toUInt8 :: seen)
      else textFrom exact fuel (put (← wideChar))

def textBytes (exact : Bool) : Reader (List UInt8) := do
  if (← next) ≠ '"' then failure
  pass
  textFrom exact (← get).budget []

def text : Reader String := do
  let bs ← textBytes false
  release
  return Text.ofUtf8 bs

end FiberVm.Json
