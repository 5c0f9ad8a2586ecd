/-!
# Fields at the front of a text

Numbers of fixed width and the separators between them. Each reader gives what follows.
-/

set_option autoImplicit false

namespace FiberVm.Text

/-- A number with exactly `width` digits at the front. -/
def number (width : Nat) (cs : List Char) : Option (Nat × List Char) :=
  let ds := cs.take width
  if ds.length = width && ds.all Char.isDigit then some (Nat.ofDigitChars 10 ds 0, cs.drop width)
  else none

/-- A separator at the front. -/
def mark (c : Char) : List Char → Option (List Char)
  | d :: cs => if c = d then some cs else none
  | [] => none

end FiberVm.Text
