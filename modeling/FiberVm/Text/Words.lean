import FiberVm.Text.Blank

/-!
# Words of a line

A line is cut at white space; runs of it count once and the ends do not count.
-/

set_option autoImplicit false

namespace FiberVm.Text

/-- The words of some bytes. `skip` counts the bytes that still belong to a white-space character,
and the word that is being read is given in reverse. -/
def wordsFrom (skip : Nat) (word : List UInt8) : List UInt8 → List (List UInt8)
  | [] => if word.isEmpty then [] else [word.reverse]
  | b :: bs =>
    match skip, blankWidth (b :: bs) with
    | skip + 1, _ => wordsFrom skip word bs
    | 0, 0 => wordsFrom 0 (b :: word) bs
    | 0, width + 1 =>
      if word.isEmpty then wordsFrom width [] bs else word.reverse :: wordsFrom width [] bs

def words (line : List UInt8) : List (List UInt8) := wordsFrom 0 [] line

end FiberVm.Text
