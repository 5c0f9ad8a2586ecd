import FiberVm.Cbor.Reader
import FiberVm.Cbor.Value
import FiberVm.Program.Basic

/-!
# Programs in CBOR

Programs and records are maps with numbered fields. Written records leave out every operand that is
zero, empty or null; an omitted operand reads back as such.
-/

set_option autoImplicit false

namespace FiberVm

open Cbor (Item)

namespace Record

def ofEntries? (entries : List (Item × Item)) : Option (Record Datum) := do
  return {
    opcode := ← Item.field? entries 1 "" Item.text?
    value := ← Item.field? entries 2 .null (Item.datum? true)
    position := ← Item.field? entries 3 [] (Item.list? Item.integer?)
    sym := ← Item.field? entries 4 "" Item.text?
    operator := ← Item.field? entries 5 "" Item.text?
    slots := ← Item.field? entries 6 0 Item.integer?
    arity := ← Item.field? entries 7 0 Item.integer?
    entry := ← Item.field? entries 8 0 Item.integer?
    target := ← Item.field? entries 9 0 Item.integer?
    stop := ← Item.field? entries 10 0 Item.integer? }

def ofItem? : Item → Option (Record Datum) := Item.record? { value := .null } ofEntries?

/-- The item of a literal; null has none. -/
def literalItem? : Literal → Option Item
  | .null => none
  | .undefined => some (Item.ofText Literal.undefinedText)
  | .bool b => some (Item.ofBool b)
  | .int n => some (Item.ofInt n.toInt)

def toItem (r : Record Literal) : Item :=
  let field (number : UInt64) (x : Item) : Item × Item := (.unsigned number, x)
  let integer (number : UInt64) (n : Int) : List (Item × Item) :=
    if n = 0 then [] else [field number (Item.ofInt n)]
  let text (number : UInt64) (s : String) : List (Item × Item) :=
    if s = "" then [] else [field number (Item.ofText s)]
  let position : List (Item × Item) :=
    if r.position.isEmpty then [] else [field 3 (.array (r.position.map Item.ofInt))]
  .map ([field 1 (Item.ofText r.opcode)]
    ++ ((literalItem? r.value).map (field 2)).toList
    ++ position
    ++ text 4 r.sym
    ++ text 5 r.operator
    ++ integer 6 r.slots
    ++ integer 7 r.arity
    ++ integer 8 r.entry
    ++ integer 9 r.target
    ++ integer 10 r.stop)

end Record

namespace Program

def ofEntries? (entries : List (Item × Item)) : Option (Program Datum) := do
  return {
    version := ← Item.field? entries 1 0 Item.integer?
    records := ← Item.field? entries 2 [] (Item.list? Record.ofItem?) }

def ofCbor? (bs : List UInt8) : Option (Program Datum) := do
  Item.record? {} ofEntries? (← Item.decode? bs)

def toItem (p : Program Literal) : Item :=
  .map [(.unsigned 1, Item.ofInt p.version), (.unsigned 2, .array (p.records.map Record.toItem))]

def toCbor (p : Program Literal) : List UInt8 := p.toItem.encode

end Program

end FiberVm
