import FiberVm.Decimal.Literal
import FiberVm.Json.Skip
import FiberVm.Json.Unquoted
import FiberVm.Program.Datum

/-!
# JSON values of any type

Where any value may stand, numbers keep their spelling and the fields of an object are kept in the
order of their names.
-/

set_option autoImplicit false

namespace FiberVm.Json

/-- Members of an object up to its closing brace, put into the fields read so far. -/
def entries (read : Reader Datum) :
    (fuel : Nat) → List (String × Datum) → Reader (List (String × Datum))
  | 0, _ => failure
  | fuel + 1, old => do
    let name ← orNull "" text
    colon
    let x ← read
    let all := insertSorted (· == ·) (fun a b => decide (a ≤ b)) name x old
    match ← next with
    | ',' =>
      pass
      entries read fuel all
    | '}' =>
      pass
      return all
    | _ => failure

def map (read : Reader Datum) : Reader Datum := do
  pass
  if (← next) = '}' then
    pass
    return .object []
  return .object (← entries read (← get).budget [])

def numeral : Reader Datum := do
  let spelling ← run isNumeral
  if !Decimal.isNumber spelling then failure
  release
  return .numeral (String.ofList spelling)

/-- A value other than a list or an object, with the cursor at its first byte. -/
def scalar (first : Char) : Reader Datum := do
  match first with
  | '"' => return .text (Text.ofUtf8 (← textBytes true))
  | 't' =>
    word ['r', 'u', 'e']
    return .bool true
  | 'f' =>
    word ['a', 'l', 's', 'e']
    return .bool false
  | 'n' =>
    null
    return .null
  | c => if c == '-' || c.isDigit then numeral else failure

/-- A value of any type, with lists and objects nested at most `room` levels deep. -/
def value : (room : Nat) → Reader Datum
  | 0 => do scalar (← next)
  | room + 1 => do
    match ← next with
    | '{' => map (value room)
    | '[' => return .list (← list (fun _ => value room) .null [])
    | c => scalar c

end FiberVm.Json
