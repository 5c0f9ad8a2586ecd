import FiberVm.Text.Printable
import FiberVm.Text.Utf8

/-!
# Quoted text

Text in messages stands between double quotes. Printable characters stand for themselves; quotes
and backslashes are escaped, control characters have short forms or a hexadecimal byte, and other
characters are written by code point. Bytes that are no text are written in hexadecimal.
-/

set_option autoImplicit false

namespace FiberVm.Text

/-- Lower-case hexadecimal digits of `n`, at least `width` of them. -/
def hexDigits (width n : Nat) : List Char :=
  let ds := Nat.toDigits 16 n
  List.replicate (width - ds.length) '0' ++ ds

/-- One character inside quotes. -/
def quotedChar (c : Char) : List Char :=
  if c = '"' ∨ c = '\\' then ['\\', c]
  else if isPrintable c then [c]
  else match c.toNat with
    | 0x07 => ['\\', 'a']
    | 0x08 => ['\\', 'b']
    | 0x0C => ['\\', 'f']
    | 0x0A => ['\\', 'n']
    | 0x0D => ['\\', 'r']
    | 0x09 => ['\\', 't']
    | 0x0B => ['\\', 'v']
    | n =>
      if n < 0x20 ∨ n = 0x7F then '\\' :: 'x' :: hexDigits 2 n
      else if n < 0x10000 then '\\' :: 'u' :: hexDigits 4 n
      else '\\' :: 'U' :: hexDigits 8 n

def quoted (s : String) : String :=
  String.ofList ('"' :: s.toList.flatMap quotedChar ++ ['"'])

/-- Some bytes inside quotes. `skip` counts the bytes that belong to the character before. -/
def quotedBytes (skip : Nat) : List UInt8 → List Char
  | [] => []
  | b :: bs =>
    match skip, firstChar? (b :: bs) with
    | skip + 1, _ => quotedBytes skip bs
    | 0, some (c, width) => quotedChar c ++ quotedBytes (width - 1) bs
    | 0, none => '\\' :: 'x' :: hexDigits 2 b.toNat ++ quotedBytes 0 bs

/-- The bytes of a text, or of what was meant as one, between double quotes. -/
def quotedUtf8 (bs : List UInt8) : String := String.ofList ('"' :: quotedBytes 0 bs ++ ['"'])

end FiberVm.Text
