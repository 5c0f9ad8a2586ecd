import FiberVm.Cbor.Item
import FiberVm.Program.Datum

/-!
# What CBOR items stand for

An item is read as a value of an expected type, or as a value of any type. Null and undefined stand
for the zero of any type. Tags around a value of an expected type do not count, except that the
standard ones must have the content the standard gives them.
-/

set_option autoImplicit false

namespace FiberVm.Cbor.Item

/-- The tag that marks data as CBOR and has no meaning of its own. -/
def selfDescribing : UInt64 := 55799

/-- Is the content of a standard tag of the right type? Tag 0 holds a date as text, tag 1 a date as
a number, and tags 2 and 3 hold the bytes of a large integer. -/
def hasContentOf (n : UInt64) (content : Item) : Bool :=
  match n.toNat, content with
  | 0, text _ => true
  | 0, _ => false
  | 1, unsigned _ | 1, negative _ | 1, float _ => true
  | 1, _ => false
  | 2, bytes _ | 3, bytes _ => true
  | 2, _ | 3, _ => false
  | _, _ => true

/-- The natural number whose bytes are given in chunks. -/
def natural (chunks : List (List UInt8)) : Nat :=
  chunks.flatten.foldl (fun n b => n * 256 + b.toNat) 0

/-- The item without its tags. A large integer is a plain one if it fits. -/
def untagged? : Item → Option Item
  | tag n content =>
    if !hasContentOf n content then none
    else
      match n.toNat, content with
      | 2, bytes chunks =>
        let m := natural chunks
        if m < 0x10000000000000000 then some (unsigned m.toUInt64) else none
      | 3, bytes chunks =>
        let m := natural chunks
        if m < 0x8000000000000000 then some (negative m.toUInt64) else none
      | _, content => content.untagged?
  | x => some x

def isNull : Item → Bool
  | simple n => n == 22 || n == 23
  | _ => false

/-- A value of an expected type, or its zero for null. -/
def typed? {α : Type} (zero : α) (read : Item → Option α) (x : Item) : Option α :=
  match x.untagged? with
  | none => none
  | some x => if x.isNull then some zero else read x

/-- An integer that fits 64 bits. Simple values without a meaning count as integers. -/
def integer? : Item → Option Int :=
  typed? 0 fun
    | unsigned n => if n.toNat < 0x8000000000000000 then some n.toNat else none
    | negative n => if n.toNat < 0x8000000000000000 then some (-1 - (n.toNat : Int)) else none
    | simple n => if n < 20 ∨ 24 ≤ n then some n.toNat else none
    | _ => none

/-- The text whose bytes are given in chunks, each of which is a text. -/
def textOf? (chunks : List (List UInt8)) : Option String :=
  (chunks.mapM fun bs => String.fromUTF8? bs.toByteArray).map String.join

def text? : Item → Option String :=
  typed? "" fun
    | text chunks => textOf? chunks
    | _ => none

def list? {α : Type} (read : Item → Option α) : Item → Option (List α) :=
  typed? [] fun
    | array items => items.mapM read
    | _ => none

/-- Can the item be the key of a record's field? A negative one has to fit 64 bits. -/
def isFieldKey : Item → Bool
  | unsigned _ => true
  | negative n => n.toNat < 0x8000000000000000
  | text chunks => (textOf? chunks).isSome
  | _ => false

/-- Is the item the key of the field with a number? The number may also be spelled out. -/
def isKeyOf (number : Nat) : Item → Bool
  | unsigned n => n.toNat == number
  | text chunks => textOf? chunks == some (toString number)
  | _ => false

/-- The part of a record with a number, read from the first field that has it; a missing part is
zero. -/
def field? {α : Type} (entries : List (Item × Item)) (number : Nat) (zero : α)
    (read : Item → Option α) : Option α :=
  match entries.find? fun e => e.1.isKeyOf number with
  | some e => read e.2
  | none => some zero

def record? {α : Type} (zero : α) (read : List (Item × Item) → Option α) : Item → Option α :=
  typed? zero fun
    | map entries => if entries.all fun e => e.1.isFieldKey then read entries else none
    | _ => none

mutual

/-- A value of any type. The self-describing tag is passed over where `skip` is set. -/
def datum? (skip : Bool) : Item → Option Datum
  | unsigned n => some (.unsigned n)
  | negative n =>
    if n.toNat < 0x8000000000000000 then some (.int (Int64.ofInt (-1 - (n.toNat : Int))))
    else some (.big (-1 - (n.toNat : Int)))
  | bytes chunks => some (.bytes chunks.flatten)
  | text chunks => (textOf? chunks).map .text
  | array items => (datums? items).map .list
  | map entries => (entries? entries []).map .map
  | tag n content =>
    if skip ∧ n = selfDescribing then content.datum? true
    else if !hasContentOf n content then none
    else
      match n.toNat, content with
      | 0, text chunks => ((textOf? chunks).bind fun s => Instant.parse? s.toList).map .time
      | 1, unsigned n => some (.time { seconds := n.toInt64 })
      | 1, negative n =>
        if n.toNat < 0x8000000000000000 then some (.time { seconds := -1 - n.toInt64 }) else none
      | 1, float bits => some (.time (Instant.ofFloat bits))
      | 2, bytes chunks => some (.big (natural chunks))
      | 3, bytes chunks => some (.big (-1 - (natural chunks : Int)))
      | _, content => (content.datum? false).map (.tagged n.toNat)
  | simple n =>
    match n.toNat with
    | 20 => some (.bool false)
    | 21 => some (.bool true)
    | 22 | 23 => some .null
    | n => some (.simple n)
  | float bits => some (.float bits)

def datums? : List Item → Option (List Datum)
  | [] => some []
  | x :: xs => do
    let x ← x.datum? true
    let xs ← datums? xs
    return x :: xs

/-- The entries of a map, put into those read so far. Of two entries with one key the later
counts. -/
def entries? : List (Item × Item) → List (Datum.Key × Datum) → Option (List (Datum.Key × Datum))
  | [], old => some old
  | (k, x) :: xs, old => do
    let k ← (← k.datum? true).key?
    let x ← x.datum? true
    entries? xs (insertSorted Datum.Key.same Datum.Key.le k x old)

end

end FiberVm.Cbor.Item
