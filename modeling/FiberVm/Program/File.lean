import FiberVm.Program.Cbor
import FiberVm.Program.Json
import FiberVm.Text.Fold
import FiberVm.Text.Utf8

/-!
# Program files

The bytes of a program file in either format, and which format the name of a file asks for.
-/

set_option autoImplicit false

namespace FiberVm

/-- The format that a file name asks for. The extension `.json` in any case means JSON, and every
other name CBOR. -/
def Format.ofPath (path : String) : Format :=
  let cs := path.toList.reverse
  let extension := (cs.takeWhile fun c => c != '.' && c != '/').reverse
  let hasDot := (cs.dropWhile fun c => c != '.' && c != '/').head? == some '.'
  if hasDot && Text.equalFold (String.ofList extension) "json" then json else cbor

namespace Program

def decode (format : Format) (bs : List UInt8) : Except Error (Program Datum) :=
  let p? :=
    match format with
    | .json => ofJson? bs
    | .cbor => ofCbor? bs
  match p? with
  | some p => .ok p
  | none => .error (.unreadable format)

def parse (s : String) : Except Error (Program Datum) := decode .json (Text.utf8 s)

def encode (format : Format) (p : Program Literal) : List UInt8 :=
  match format with
  | .json => Text.utf8 p.toJson
  | .cbor => p.toCbor

/-- The instructions in the bytes of a file. -/
def load (format : Format) (bs : List UInt8) : Except Error (List Instr) := do
  (← decode format bs).instrs

end Program

end FiberVm
