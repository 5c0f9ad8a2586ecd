/-!
# Fixed-width fields

Numbers in listings are right-aligned. A sign counts toward the width of a zero-filled field, so
`-7` in four columns is `-007`.
-/

set_option autoImplicit false

namespace FiberVm.Text

/-- Fills with `c` on the left up to `width` characters. -/
def padLeft (c : Char) (width : Nat) (s : String) : String :=
  String.ofList (List.replicate (width - s.length) c) ++ s

/-- Right-aligned in `width` columns with blanks. -/
def column (width : Nat) (n : Int) : String := padLeft ' ' width (toString n)

/-- Zero-filled in `width` columns, the sign included. -/
def zeroFilled (width : Nat) (n : Int) : String :=
  if n < 0 then "-" ++ padLeft '0' (width - 1) (toString n.natAbs)
  else padLeft '0' width (toString n.natAbs)

/-- The texts with a blank between neighbours, inside square brackets. -/
def bracketed (xs : List String) : String := "[" ++ " ".intercalate xs ++ "]"

end FiberVm.Text
