import FiberVm.Text.Quoted

/-!
# Writing JSON texts

A text stands between double quotes. Written texts escape the quote, the backslash, control
characters, and the few characters that are unsafe inside markup or scripts.
-/

set_option autoImplicit false

namespace FiberVm.Json

/-- The written form of one character inside quotes. -/
def escaped (c : Char) : List Char :=
  match c with
  | '"' => ['\\', '"']
  | '\\' => ['\\', '\\']
  | '\n' => ['\\', 'n']
  | '\r' => ['\\', 'r']
  | '\t' => ['\\', 't']
  | '<' | '>' | '&' | '\u2028' | '\u2029' => '\\' :: 'u' :: Text.hexDigits 4 c.toNat
  | c => if c.toNat < 0x20 then '\\' :: 'u' :: Text.hexDigits 4 c.toNat else [c]

def quoted (s : String) : List Char := '"' :: s.toList.flatMap escaped ++ ['"']

end FiberVm.Json
