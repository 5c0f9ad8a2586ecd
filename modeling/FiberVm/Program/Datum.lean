import FiberVm.Instr.Basic
import FiberVm.Decimal.Binary64
import FiberVm.Text.Pad
import FiberVm.Text.Utf8
import FiberVm.Time.Instant

/-!
# Values in program files

A file can put many more values into a constant's place than there are constants. A datum is such a
value, and a literal is one of the few that a constant can be. What is no literal is only ever shown
in a message, by its text and the name of its type.
-/

set_option autoImplicit false

namespace FiberVm

/-- A constant that can stand in a program file. -/
inductive Literal
  | null
  | undefined
  | bool (b : Bool)
  | int (n : Int64)
deriving DecidableEq, Repr

namespace Literal

/-- The text that spells the undefined value in a file. -/
def undefinedText : String := "undefined"

/-- The host value of a literal. -/
def constant : Literal → Constant
  | null => .nil
  | undefined => .undefined
  | bool b => .bool b
  | int n => .int .int64 n

end Literal

/-- The literal of a host value, if it has one. Integers lose the width they were declared with. -/
def Constant.literal? : Constant → Option Literal
  | .nil => some .null
  | .undefined => some .undefined
  | .bool b => some (.bool b)
  | .int _ n => some (.int n)
  | .uint64 _ | .float64 _ | .string _ | .ref _ => none

/-- A value that can be the key of a map. -/
inductive Datum.Key
  | null
  | bool (b : Bool)
  | float (bits : UInt64)
  | int (n : Int64)
  | unsigned (n : UInt64)
  | text (s : String)
  | bytes (bs : List UInt8)
  | simple (n : Nat)
  | time (t : Instant)
  | tagged (tag : Nat) (content : Datum.Key)
deriving Repr

/-- A value in a program file. -/
inductive Datum
  | null
  | bool (b : Bool)
  /-- A number as it is spelled. -/
  | numeral (spelling : String)
  | int (n : Int64)
  | unsigned (n : UInt64)
  /-- An integer of any size. -/
  | big (n : Int)
  | float (bits : UInt64)
  | text (s : String)
  | bytes (bs : List UInt8)
  | simple (n : Nat)
  | time (t : Instant)
  | tagged (tag : Nat) (content : Datum)
  | list (xs : List Datum)
  /-- A map whose keys are all texts by the rules of the format. -/
  | object (fields : List (String × Datum))
  | map (entries : List (Datum.Key × Datum))
deriving Repr

namespace Datum

/-- The value of a float as a number that grows with it; both zeros have the same. -/
def floatRank (bits : UInt64) : Int :=
  let n := bits.toNat
  if 0x8000000000000000 ≤ n then -((n - 0x8000000000000000 : Nat) : Int) else n

/-- Does the float stand for no number? -/
def isNan (bits : UInt64) : Bool := 0x7FF0000000000000 < (floatRank bits).natAbs

namespace Key

/-- Keys of different types are ordered by type. -/
def rank : Key → Nat
  | null => 0
  | bool _ => 1
  | float _ => 2
  | int _ => 3
  | text _ => 4
  | unsigned _ => 5
  | simple _ => 6
  | bytes _ => 7
  | tagged _ _ => 8
  | time _ => 9

/-- Are two keys the same entry of a map? Both zeros are, and what is no number is not even the same
as itself. -/
def same : Key → Key → Bool
  | null, null => true
  | bool a, bool b => a == b
  | float a, float b => !isNan a && !isNan b && floatRank a == floatRank b
  | int a, int b => a == b
  | unsigned a, unsigned b => a == b
  | text a, text b => a == b
  | bytes a, bytes b => a == b
  | simple a, simple b => a == b
  | time a, time b => a.same b
  | tagged m a, tagged n b => m == n && same a b
  | _, _ => false

/-- The order in which the keys of a map are shown. What is no number stands in front of all
floats. -/
def le : Key → Key → Bool
  | bool a, bool b => !a || b
  | float a, float b => isNan a || (!isNan b && floatRank a ≤ floatRank b)
  | int a, int b => decide (a ≤ b)
  | unsigned a, unsigned b => decide (a ≤ b)
  | text a, text b => decide (a ≤ b)
  | bytes a, bytes b => decide (a ≤ b)
  | simple a, simple b => decide (a ≤ b)
  | time a, time b => a.le b
  | tagged m a, tagged n b => if m = n then le a b else decide (m < n)
  | a, b => decide (a.rank ≤ b.rank)

/-- The text of a key in a message. -/
def shown : Key → String
  | null => "<nil>"
  | bool b => toString b
  | float bits => (Decimal.Binary64.ofBits bits).text
  | int n => toString n.toInt
  | unsigned n => toString n.toNat
  | text s => s
  | bytes bs => Text.ofUtf8 bs
  | simple n => toString n
  | time t => t.text
  | tagged tag content => s!"\x7b{tag} {content.shown}\x7d"

end Key

/-- The value as a key, if it can be one. -/
def key? : Datum → Option Key
  | null => some .null
  | bool b => some (.bool b)
  | float bits => some (.float bits)
  | int n => some (.int n)
  | unsigned n => some (.unsigned n)
  | text s => some (.text s)
  | bytes bs => some (.bytes bs)
  | simple n => some (.simple n)
  | time t => some (.time t)
  | tagged tag content => content.key?.map (.tagged tag)
  | numeral _ | big _ | list _ | object _ | map _ => none

/-- The 64-bit digits of a natural number, lowest first. -/
def limbs (n : Nat) : List Nat :=
  if n = 0 then [] else n % 0x10000000000000000 :: limbs (n / 0x10000000000000000)
termination_by n
decreasing_by omega

/-- A large integer is shown as its sign and digits. -/
def bigText (n : Int) : String :=
  let sign := toString (decide (n < 0))
  let digits := Text.bracketed ((limbs n.natAbs).map toString)
  s!"\x7b{sign} {digits}\x7d"

/-- The entries of a map inside its brackets. -/
def entriesText (entries : List String) : String := "map" ++ Text.bracketed entries

mutual

/-- The text of a value in a message. -/
def shown : Datum → String
  | null => "<nil>"
  | bool b => toString b
  | numeral spelling => spelling
  | int n => toString n.toInt
  | unsigned n => toString n.toNat
  | big n => bigText n
  | float bits => (Decimal.Binary64.ofBits bits).text
  | text s => s
  | bytes bs => Text.bracketed (bs.map fun b => toString b.toNat)
  | simple n => toString n
  | time t => t.text
  | tagged tag content => s!"\x7b{tag} {content.shown}\x7d"
  | list xs => Text.bracketed (shownAll xs)
  | object fields => entriesText (shownFields fields)
  | map entries => entriesText (shownEntries entries)

def shownAll : List Datum → List String
  | [] => []
  | x :: xs => x.shown :: shownAll xs

def shownFields : List (String × Datum) → List String
  | [] => []
  | (name, x) :: xs => s!"{name}:{x.shown}" :: shownFields xs

def shownEntries : List (Key × Datum) → List String
  | [] => []
  | (key, x) :: xs => s!"{key.shown}:{x.shown}" :: shownEntries xs

end

/-- The name of a value's type in a message. -/
def typeName : Datum → String
  | null => "<nil>"
  | bool _ => "bool"
  | numeral _ => "json.Number"
  | int _ => "int64"
  | unsigned _ => "uint64"
  | big _ => "big.Int"
  | float _ => "float64"
  | text _ => "string"
  | bytes _ => "[]uint8"
  | simple _ => "cbor.SimpleValue"
  | time _ => "time.Time"
  | tagged _ _ => "cbor.Tag"
  | list _ => "[]interface {}"
  | object _ => "map[string]interface {}"
  | map _ => "map[interface {}]interface {}"

end Datum

def Literal.datum : Literal → Datum
  | null => .null
  | undefined => .text undefinedText
  | bool b => .bool b
  | int n => .int n

/-- Puts an entry into a list kept in ascending order of its keys, in place of an entry with the
same key. -/
def insertSorted {κ α : Type} (same le : κ → κ → Bool) (k : κ) (x : α) :
    List (κ × α) → List (κ × α)
  | [] => [(k, x)]
  | (l, y) :: rest =>
    if same k l then (k, x) :: rest
    else if le k l then (k, x) :: (l, y) :: rest
    else (l, y) :: insertSorted same le k x rest

end FiberVm
