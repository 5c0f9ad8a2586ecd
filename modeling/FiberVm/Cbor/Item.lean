import FiberVm.Text.Utf8

/-!
# CBOR items

The data model of CBOR and its written form. Numbers are written in the fewest bytes. A byte or text
string is a list of chunks: one chunk is a string of known length, any other number of chunks is a
string of unknown length.
-/

set_option autoImplicit false

namespace FiberVm.Cbor

/-- A data item. The simple values 20 to 23 are false, true, null and undefined. -/
inductive Item
  | unsigned (n : UInt64)
  /-- The integer `-1 - n`. -/
  | negative (n : UInt64)
  | bytes (chunks : List (List UInt8))
  | text (chunks : List (List UInt8))
  | array (items : List Item)
  | map (entries : List (Item × Item))
  | tag (n : UInt64) (content : Item)
  | simple (n : UInt8)
  | float (bits : UInt64)
deriving Repr

/-- The lowest `width` bytes of a number, highest first. -/
def bigEndian : Nat → Nat → List UInt8
  | 0, _ => []
  | width + 1, n => (n / Nat.pow 256 width).toUInt8 :: bigEndian width n

/-- The number with the given bytes, highest first. -/
def ofBigEndian (bs : List UInt8) : Nat := bs.foldl (fun n b => n * 256 + b.toNat) 0

/-- The head of an item: a major type from 0 to 7 and its argument. -/
def head (major n : Nat) : List UInt8 :=
  let first (info : Nat) : UInt8 := (major * 32 + info).toUInt8
  if n < 24 then [first n]
  else if n < 256 then first 24 :: bigEndian 1 n
  else if n < 65536 then first 25 :: bigEndian 2 n
  else if n < 0x100000000 then first 26 :: bigEndian 4 n
  else first 27 :: bigEndian 8 n

/-- The byte that ends an item of unknown length. -/
def breakByte : UInt8 := 0xFF

/-- A string of a major type. -/
def stringBytes (major : Nat) (chunks : List (List UInt8)) : List UInt8 :=
  match chunks with
  | [bs] => head major bs.length ++ bs
  | chunks =>
    (major * 32 + 31).toUInt8 :: chunks.flatMap (fun bs => head major bs.length ++ bs) ++ [breakByte]

namespace Item

mutual

def encode : Item → List UInt8
  | unsigned n => head 0 n.toNat
  | negative n => head 1 n.toNat
  | bytes chunks => stringBytes 2 chunks
  | text chunks => stringBytes 3 chunks
  | array items => head 4 items.length ++ encodeAll items
  | map entries => head 5 entries.length ++ encodeEntries entries
  | tag n content => head 6 n.toNat ++ content.encode
  | simple n => head 7 n.toNat
  | float bits => 0xFB :: bigEndian 8 bits.toNat

def encodeAll : List Item → List UInt8
  | [] => []
  | x :: xs => x.encode ++ encodeAll xs

def encodeEntries : List (Item × Item) → List UInt8
  | [] => []
  | (k, x) :: xs => k.encode ++ x.encode ++ encodeEntries xs

end

/-- The item of an integer that fits 64 bits. -/
def ofInt (n : Int) : Item :=
  if 0 ≤ n then unsigned (UInt64.ofInt n) else negative (UInt64.ofInt (-1 - n))

def ofText (s : String) : Item := text [Text.utf8 s]

def ofBool (b : Bool) : Item := simple (if b then 21 else 20)

end Item

end FiberVm.Cbor
