/-!
# Binary floating point as text

A 64-bit float is read from its bits as m · 2^q, and everything else is exact arithmetic on natural
numbers. The digits written are the fewest that read back as the same float; among those of the same
length, the ones nearest to it.
-/

set_option autoImplicit false

namespace FiberVm.Decimal

/-- The value m · 2^q of a finite float, without its sign. -/
structure Magnitude where
  m : Nat
  q : Int
deriving DecidableEq, Repr

inductive Binary64
  | nan
  | infinite (negative : Bool)
  | finite (negative : Bool) (magnitude : Magnitude)
deriving DecidableEq, Repr

namespace Binary64

/-- Reads the fields of a 64-bit float. -/
def ofBits (bits : UInt64) : Binary64 :=
  let n := bits.toNat
  let negative := decide (0x8000000000000000 ≤ n)
  let e : Nat := n / 0x10000000000000 % 2048
  let f := n % 0x10000000000000
  if e = 2047 then if f = 0 then infinite negative else nan
  else if e = 0 then finite negative ⟨f, -1074⟩
  else finite negative ⟨0x10000000000000 + f, (e : Int) - 1075⟩

/-- The bits of the float with a narrower format's fields: `w` bits of exponent and `p` of fraction
are widened without a change of value. -/
def widen (w p : Nat) (n : Nat) : UInt64 :=
  let sign := n / Nat.pow 2 (w + p) % 2 * 0x8000000000000000
  let e := n / Nat.pow 2 p % Nat.pow 2 w
  let f := n % Nat.pow 2 p
  let bias := Nat.pow 2 (w - 1) - 1
  let fields :=
    if e = Nat.pow 2 w - 1 then 2047 * 0x10000000000000 + f * Nat.pow 2 (52 - p)
    else if e ≠ 0 then (e + 1023 - bias) * 0x10000000000000 + f * Nat.pow 2 (52 - p)
    else if f = 0 then 0
    else
      let top := Nat.log2 f
      (top + 1024 - bias - p) * 0x10000000000000 + (f - Nat.pow 2 top) * Nat.pow 2 (52 - top)
  (sign + fields).toUInt64

/-- The integer that a float is, if it is one. -/
def integer? : Binary64 → Option Int
  | nan | infinite _ => none
  | finite negative v =>
    let signed (n : Nat) : Int := if negative then -(n : Int) else n
    if 0 ≤ v.q then some (signed (v.m * Nat.pow 2 v.q.toNat))
    else
      let d := Nat.pow 2 (-v.q).toNat
      if v.m % d = 0 then some (signed (v.m / d)) else none

end Binary64

namespace Magnitude

/-- Compares `c · 10^p` with `n` quarters of the last binary place `2^q`. -/
def compareAt (c : Nat) (p : Int) (n : Nat) (q : Int) : Ordering :=
  let left := c * Nat.pow 10 p.toNat * Nat.pow 2 (2 - q).toNat
  let right := n * Nat.pow 2 (q - 2).toNat * Nat.pow 10 (-p).toNat
  compare left right

/-- Does `c · 10^p` read back as this float? The ends of the interval belong to it exactly if `m`
is even; below a power of two the lower half of the interval is half as wide. -/
def readsBack (v : Magnitude) (c : Nat) (p : Int) : Bool :=
  let lower := 4 * v.m - (if v.m = 0x10000000000000 ∧ -1074 < v.q then 1 else 2)
  let upper := 4 * v.m + 2
  let lo := compareAt c p lower v.q
  let hi := compareAt c p upper v.q
  if v.m % 2 = 0 then lo != .lt && hi != .gt else lo == .gt && hi == .lt

/-- The integer part of the value over `10^p`. -/
def floorAt (v : Magnitude) (p : Int) : Nat :=
  v.m * Nat.pow 2 v.q.toNat * Nat.pow 10 (-p).toNat
    / (Nat.pow 2 (-v.q).toNat * Nat.pow 10 p.toNat)

/-- The exponent of the leading decimal digit. -/
def leading (v : Magnitude) : Int :=
  let whole := v.floorAt 0
  if whole ≠ 0 then ((Nat.toDigits 10 whole).length : Int) - 1
  else
    match (List.range 400).find? (fun k : Nat => v.floorAt (-(k : Int)) ≠ 0) with
    | some k => -(k : Int)
    | none => 0

/-- Of the two neighbours on the grid of `10^p`, the nearer that reads back; an even one if both are
as near. -/
def onGrid? (v : Magnitude) (p : Int) : Option Nat :=
  let d := v.floorAt p
  match v.readsBack d p, v.readsBack (d + 1) p with
  | false, false => none
  | true, false => some d
  | false, true => some (d + 1)
  | true, true =>
    match compareAt (2 * d + 1) p (8 * v.m) v.q with
    | .gt => some d
    | .lt => some (d + 1)
    | .eq => some (if d % 2 = 0 then d else d + 1)

/-- The fewest digits that read back, and the power of ten of the last one. -/
def shortest (v : Magnitude) : Nat × Int :=
  let e := v.leading
  let found := (List.range 17).findSome? fun n : Nat =>
    (v.onGrid? (e - n)).map fun c => (c, e - (n : Int))
  found.getD (v.floorAt (e - 16), e - 16)

end Magnitude

/-- The digits without zeros at the end, and how many zeros there were. -/
def stripZeros (ds : List Char) : List Char × Nat :=
  let kept := (ds.reverse.dropWhile (· == '0')).reverse
  (kept, ds.length - kept.length)

/-- A decimal exponent with its sign and at least two digits. -/
def exponentText (e : Int) : String :=
  let ds := toString e.natAbs
  (if e < 0 then "e-" else "e+") ++ (if ds.length < 2 then "0" else "") ++ ds

/-- Positional notation for exponents from -4 to 5, otherwise one digit before the point and an
exponent. `point` is the position of the decimal point relative to the first digit. -/
def layout (ds : List Char) (point : Int) : String :=
  let e := point - 1
  if e < -4 ∨ 6 ≤ e then
    let fraction := ds.drop 1
    String.ofList (ds.take 1 ++ (if fraction.isEmpty then [] else '.' :: fraction))
      ++ exponentText e
  else if point ≤ 0 then
    "0." ++ String.ofList (List.replicate (-point).toNat '0' ++ ds)
  else
    let n := point.toNat
    let whole := ds.take n ++ List.replicate (n - ds.length) '0'
    let fraction := ds.drop n
    String.ofList (whole ++ (if fraction.isEmpty then [] else '.' :: fraction))

def Binary64.text : Binary64 → String
  | nan => "NaN"
  | infinite negative => if negative then "-Inf" else "+Inf"
  | finite negative v =>
    let body :=
      if v.m = 0 then "0"
      else
        let (c, p) := v.shortest
        let (ds, zeros) := stripZeros (Nat.toDigits 10 c)
        layout ds (ds.length + p + zeros)
    (if negative then "-" else "") ++ body

end FiberVm.Decimal
