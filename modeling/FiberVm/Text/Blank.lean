import FiberVm.Text.Utf8

/-!
# White space

The characters with the Unicode property White_Space, and trimming by them.
-/

set_option autoImplicit false

namespace FiberVm.Text

/-- Is this a white-space character? -/
def isBlank (c : Char) : Bool :=
  let n := c.toNat
  decide ((0x09 ≤ n ∧ n ≤ 0x0D) ∨ n = 0x20 ∨ n = 0x85 ∨ n = 0xA0 ∨ n = 0x1680
    ∨ (0x2000 ≤ n ∧ n ≤ 0x200A) ∨ n = 0x2028 ∨ n = 0x2029 ∨ n = 0x202F ∨ n = 0x205F ∨ n = 0x3000)

/-- The number of bytes that a white-space character at the front takes, zero if there is none. -/
def blankWidth (bs : List UInt8) : Nat :=
  match bs with
  | [] => 0
  | _ :: _ =>
    let (c, width) := firstChar bs
    if isBlank c then width else 0

/-- The bytes without white space in front. `fuel` bounds its length. -/
def trimStart : (fuel : Nat) → List UInt8 → List UInt8
  | 0, bs => bs
  | fuel + 1, bs =>
    match blankWidth bs with
    | 0 => bs
    | width => trimStart fuel (bs.drop width)

/-- The bytes that follow the last character other than white space. They are looked for from the
front: `seen` counts the bytes since that character. -/
def blankEnd : (fuel : Nat) → (seen : Nat) → List UInt8 → Nat
  | 0, seen, _ => seen
  | _, seen, [] => seen
  | fuel + 1, seen, b :: bs =>
    match blankWidth (b :: bs) with
    | 0 => blankEnd fuel 0 bs
    | width => blankEnd fuel (seen + width) ((b :: bs).drop width)

theorem blankEnd_cons (fuel seen : Nat) (b : UInt8) (bs : List UInt8) :
    blankEnd (fuel + 1) seen (b :: bs)
      = if blankWidth (b :: bs) = 0 then blankEnd fuel 0 bs
        else blankEnd fuel (seen + blankWidth (b :: bs)) ((b :: bs).drop (blankWidth (b :: bs))) := by
  -- The equation that the definition itself gives is slow to make, since it looks into the width.
  change (match blankWidth (b :: bs) with
    | 0 => blankEnd fuel 0 bs
    | width => blankEnd fuel (seen + width) ((b :: bs).drop width)) = _
  generalize blankWidth (b :: bs) = width
  cases width <;> simp

/-- The bytes of a text without white space at its ends. -/
def trimUtf8 (bs : List UInt8) : List UInt8 :=
  let bs := trimStart bs.length bs
  bs.take (bs.length - blankEnd bs.length 0 bs)

end FiberVm.Text
