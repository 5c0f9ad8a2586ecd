import FiberVm.Json.Layout
import FiberVm.Json.Object
import FiberVm.Json.Value
import FiberVm.Program.Basic
import FiberVm.Text.Blank

/-!
# Programs in JSON

A program is an object with a version and a list of records. The list may also stand alone, which
gives it the current version. Written records leave out every operand that is zero, empty or null;
an omitted operand reads back as such.
-/

set_option autoImplicit false

namespace FiberVm

namespace Record

/-- A record without operands. -/
def blank : Record Datum := { value := .null }

/-- The readers of a record's parts, with values nested at most `room` levels deep. -/
def jsonParts (room : Nat) : Json.Parts (Record Datum) :=
  let part {α : Type} (get : Record Datum → α) (set : Record Datum → α → Record Datum)
      (read : α → Json.Reader α) (r : Record Datum) : Json.Reader (Record Datum) := do
    return set r (← read (get r))
  let integer (old : Int) : Json.Reader Int := Json.orNull old Json.integer
  let text (old : String) : Json.Reader String := Json.orNull old Json.text
  [("arity", part arity (fun r x => { r with arity := x }) integer),
    ("compilepos", part position (fun r x => { r with position := x }) (Json.list integer 0)),
    ("entryinstr", part entry (fun r x => { r with entry := x }) integer),
    ("numdeclarations", part slots (fun r x => { r with slots := x }) integer),
    ("opcode", part opcode (fun r x => { r with opcode := x }) text),
    ("operator", part operator (fun r x => { r with operator := x }) text),
    ("stopinstr", part stop (fun r x => { r with stop := x }) integer),
    ("sym", part sym (fun r x => { r with sym := x }) text),
    ("targetinstr", part target (fun r x => { r with target := x }) integer),
    ("value", part value (fun r x => { r with value := x }) fun _ => Json.value room)]

/-- Reads a record over an old one. -/
def readJson (room : Nat) (old : Record Datum) : Json.Reader (Record Datum) :=
  Json.object room (jsonParts room) old

/-- The text of a literal; null has none. -/
def literalText? : Literal → Option (List Char)
  | .null => none
  | .undefined => some (Json.quoted Literal.undefinedText)
  | .bool true => some "true".toList
  | .bool false => some "false".toList
  | .int n => some (Json.integerText n.toInt)

/-- The fields of a record that are written. -/
def jsonFields (level : Nat) (r : Record Literal) : List (List Char) :=
  let integer (name : String) (n : Int) : List (List Char) :=
    if n = 0 then [] else [Json.fieldText name (Json.integerText n)]
  let text (name s : String) : List (List Char) :=
    if s = "" then [] else [Json.fieldText name (Json.quoted s)]
  let position : List (List Char) :=
    if r.position.isEmpty then []
    else [Json.fieldText "compilePos" (Json.listText (level + 1) (r.position.map Json.integerText))]
  [Json.fieldText "opcode" (Json.quoted r.opcode)]
    ++ ((literalText? r.value).map (Json.fieldText "value")).toList
    ++ position
    ++ text "sym" r.sym
    ++ text "operator" r.operator
    ++ integer "numDeclarations" r.slots
    ++ integer "arity" r.arity
    ++ integer "entryInstr" r.entry
    ++ integer "targetInstr" r.target
    ++ integer "stopInstr" r.stop

def jsonText (level : Nat) (r : Record Literal) : List Char :=
  Json.objectText level (r.jsonFields level)

end Record

namespace Program

/-- Reads the records of a list that itself stands at a depth. -/
def readJsonRecords (depth : Nat) (old : List (Record Datum)) :
    Json.Reader (List (Record Datum)) :=
  Json.list (Record.readJson (Json.maxDepth - (depth + 1))) Record.blank old

/-- The readers of a program's parts. -/
def jsonParts : Json.Parts (Program Datum) :=
  [("instructions", fun p => do return { p with records := ← readJsonRecords 2 p.records }),
    ("version", fun p => do return { p with version := ← Json.orNull p.version Json.integer })]

/-- Passes a separator in front of the first value. -/
def skipSeparator : Json.Reader Unit := do
  match ← Json.next with
  | ',' | ':' => Json.pass
  | '\x00' => failure
  | _ => return ()

/-- Reads a program from what a window shows. A list alone has the current version. -/
def readJson (isList : Bool) : Json.Reader (Program Datum) := do
  skipSeparator
  if isList then return { version := currentVersion, records := ← readJsonRecords 1 [] }
  else Json.object (Json.maxDepth - 1) jsonParts {}

/-- Reads a program. White space around it and what follows the first value are ignored. -/
def ofJson? (bs : List UInt8) : Option (Program Datum) :=
  let bs := Text.trimUtf8 bs
  ((readJson (bs.head? == some 0x5B)).run (Json.Window.ofBytes bs)).map (·.1)

def toJson (p : Program Literal) : String :=
  String.ofList <| Json.objectText 0
    [Json.fieldText "version" (Json.integerText p.version),
      Json.fieldText "instructions" (Json.listText 1 (p.records.map (Record.jsonText 2)))]

end Program

end FiberVm
