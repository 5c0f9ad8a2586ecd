/-!
# Text from bytes

Bytes that are not UTF-8 are no obstacle: each byte that starts no character is read as the
replacement character.
-/

set_option autoImplicit false

namespace FiberVm.Text

def utf8 (s : String) : List UInt8 := s.toUTF8.data.toList

/-- The character in a number of bytes at the front, if they are exactly one. -/
def char? (width : Nat) (bs : List UInt8) : Option Char :=
  match String.fromUTF8? (bs.take width).toByteArray with
  | some s => if s.length = 1 then s.toList.head? else none
  | none => none

/-- The first character and how many bytes it takes, if some bytes at the front are one. -/
def firstChar? (bs : List UInt8) : Option (Char × Nat) :=
  [1, 2, 3, 4].findSome? fun width => (char? width bs).map fun c => (c, width)

/-- The first character and how many bytes it takes. -/
def firstChar (bs : List UInt8) : Char × Nat := (firstChar? bs).getD ('\ufffd', 1)

/-- The number of bytes that a first byte asks for, and the range of the second. -/
def lead (b : UInt8) : Nat × UInt8 × UInt8 :=
  if b < 0xC2 || 0xF4 < b then (1, 0x80, 0xBF)
  else if b < 0xE0 then (2, 0x80, 0xBF)
  else if b < 0xF0 then (3, if b == 0xE0 then 0xA0 else 0x80, if b == 0xED then 0x9F else 0xBF)
  else (4, if b == 0xF0 then 0x90 else 0x80, if b == 0xF4 then 0x8F else 0xBF)

/-- Do the bytes tell what the first character is? They do not if more bytes could complete it. -/
def isWhole (bs : List UInt8) : Bool :=
  match bs with
  | [] => false
  | b :: bs =>
    let (width, low, high) := lead b
    match bs with
    | [] => width ≤ 1
    | c :: bs =>
      width ≤ bs.length + 2 || c < low || high < c
        || (bs.head?.map fun d => d < 0x80 || 0xBF < d).getD false

/-- The characters of some bytes. `fuel` bounds their number. -/
def chars : Nat → List UInt8 → List Char
  | 0, _ => []
  | _, [] => []
  | fuel + 1, bs =>
    let (c, width) := firstChar bs
    c :: chars fuel (bs.drop width)

/-- The text of some bytes. -/
def ofUtf8 (bs : List UInt8) : String :=
  match String.fromUTF8? bs.toByteArray with
  | some s => s
  | none => String.ofList (chars bs.length bs)

end FiberVm.Text
