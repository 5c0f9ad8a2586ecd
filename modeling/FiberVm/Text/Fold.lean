/-!
# Letter case

Texts that differ in the case of ASCII letters only. The long s and the Kelvin sign are other forms
of such letters.
-/

set_option autoImplicit false

namespace FiberVm.Text

/-- The common form of the letters that differ in case only. -/
def foldChar (c : Char) : Char :=
  if c = '\u017f' then 's' else if c = '\u212a' then 'k' else c.toLower

/-- Do the texts differ in the case of ASCII letters at most? -/
def equalFold (a b : String) : Bool := a.toList.map foldChar == b.toList.map foldChar

end FiberVm.Text
