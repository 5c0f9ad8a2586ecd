/-!
# Integers as text

Signed 64-bit integers are read in base ten, or in the base that a leading `0x`, `0o`, `0b` or `0`
names. In the second reading an underscore may stand between two digits or behind the mark of the
base. Digits are taken from the left, so a number that is too long is out of range even if something
else is wrong further on.
-/

set_option autoImplicit false

namespace FiberVm.Text

inductive IntegerError
  | malformed
  | outOfRange
deriving DecidableEq, Repr

/-- The value of a digit in bases up to 36. -/
def digitValue? (c : Char) : Option Nat :=
  if '0' ≤ c ∧ c ≤ '9' then some (c.toNat - '0'.toNat)
  else if 'a' ≤ c ∧ c ≤ 'z' then some (c.toNat - 'a'.toNat + 10)
  else if 'A' ≤ c ∧ c ≤ 'Z' then some (c.toNat - 'A'.toNat + 10)
  else none

/-- The number that continues `n` with more digits of a base. It must fit 64 bits at every digit. -/
def magnitude (base : Nat) (underscores : Bool) (n : Nat) : List Char → Except IntegerError Nat
  | [] => .ok n
  | c :: cs =>
    if underscores && c == '_' then magnitude base underscores n cs
    else
      match digitValue? c with
      | none => .error .malformed
      | some d =>
        if base ≤ d then .error .malformed
        else
          let n := n * base + d
          if 0x10000000000000000 ≤ n then .error .outOfRange else magnitude base underscores n cs

/-- The integer with a sign and a magnitude, if it fits 64 bits. -/
def signed (negative : Bool) (n : Nat) : Except IntegerError Int :=
  if negative then if n ≤ 0x8000000000000000 then .ok (-(n : Int)) else .error .outOfRange
  else if n < 0x8000000000000000 then .ok n
  else .error .outOfRange

/-- Splits off a sign; true stands for minus. -/
def splitSign : List Char → Bool × List Char
  | '-' :: cs => (true, cs)
  | '+' :: cs => (false, cs)
  | cs => (false, cs)

/-- A signed integer in base ten. -/
def decimal (s : List Char) : Except IntegerError Int := do
  let (negative, digits) := splitSign s
  if digits.isEmpty then throw .malformed
  signed negative (← magnitude 10 false 0 digits)

/-- The base of some digits and the digits behind its mark. A zero in front of other digits marks
base eight. -/
def splitBase : List Char → Nat × List Char
  | '0' :: 'x' :: c :: cs | '0' :: 'X' :: c :: cs => (16, c :: cs)
  | '0' :: 'o' :: c :: cs | '0' :: 'O' :: c :: cs => (8, c :: cs)
  | '0' :: 'b' :: c :: cs | '0' :: 'B' :: c :: cs => (2, c :: cs)
  | '0' :: cs => (8, cs)
  | cs => (10, cs)

/-- Does every underscore have a digit on either side? `afterDigit` tells of the character before. -/
def underscoresSeparate (afterDigit : Bool) : List Char → Bool
  | [] => true
  | ['_'] => false
  | '_' :: c :: cs => afterDigit && c != '_' && underscoresSeparate false (c :: cs)
  | _ :: cs => underscoresSeparate true cs

/-- A signed integer in the base that it names. -/
def anyBase (s : List Char) : Except IntegerError Int := do
  let (negative, digits) := splitSign s
  if digits.isEmpty then throw .malformed
  let (base, rest) := splitBase digits
  let n ← magnitude base true 0 rest
  let marked := rest.length < digits.length
  if !underscoresSeparate marked rest then throw .malformed
  signed negative n

end FiberVm.Text
