import FiberVm.Text.Integer

/-!
# Number literals

A decimal literal has an optional sign, digits with at most one point among them, and an optional
exponent. It is out of range if its value rounds beyond the largest 64-bit float.
-/

set_option autoImplicit false

namespace FiberVm.Decimal

/-- A decimal literal without its sign, `digits · 10 ^ exponent`. -/
structure Literal where
  digits : Nat
  exponent : Int
deriving DecidableEq, Repr

/-- The exponent part of a literal, or zero where there is none. -/
def exponentOf? : List Char → Option Int
  | [] => some 0
  | c :: cs =>
    if c = 'e' ∨ c = 'E' then
      let (negative, ds) := Text.splitSign cs
      if ds.isEmpty || !ds.all Char.isDigit then none
      else
        let n : Int := Nat.ofDigitChars 10 ds 0
        some (if negative then -n else n)
    else none

namespace Literal

/-- Reads a literal without its sign. At least one digit is needed, on either side of the point. -/
def ofSpelling? (cs : List Char) : Option Literal := do
  let whole := cs.takeWhile Char.isDigit
  let cs := cs.dropWhile Char.isDigit
  let (fraction, cs) : List Char × List Char :=
    match cs with
    | '.' :: cs => (cs.takeWhile Char.isDigit, cs.dropWhile Char.isDigit)
    | cs => ([], cs)
  if whole.isEmpty && fraction.isEmpty then failure
  let exponent ← exponentOf? cs
  return ⟨Nat.ofDigitChars 10 (whole ++ fraction) 0, exponent - fraction.length⟩

/-- Does the value round to a finite float? The bound is halfway between the largest float and the
next power of two, and the halfway point rounds up. -/
def isFinite (d : Literal) : Bool :=
  let width : Int := (Nat.toDigits 10 d.digits).length + d.exponent
  if d.digits = 0 ∨ width < 300 then true
  else if 320 < width then false
  else
    let bound := (Nat.pow 2 54 - 1) * Nat.pow 2 970
    d.digits * Nat.pow 10 d.exponent.toNat < bound * Nat.pow 10 (-d.exponent).toNat

end Literal

/-- Is this the spelling of a number in range? -/
def isNumber (spelling : List Char) : Bool :=
  match Literal.ofSpelling? (Text.splitSign spelling).2 with
  | some d => d.isFinite
  | none => false

end FiberVm.Decimal
