import FiberVm.Json.Skip
import FiberVm.Json.Unquoted

/-!
# Reading JSON objects

The fields of an object replace the parts of a value one by one. Field names are found in any case.
They are compared letter by letter: as long as some name fits, escapes are decoded, and the closing
quote chooses the first of the names that still fit, provided the written name is at least as long.
Once no name fits, the rest of the written name is passed over unread.
-/

set_option autoImplicit false

namespace FiberVm.Json

/-- The names that fit so far, with the letters that are still to come, their lengths and what they
stand for. -/
abbrev Candidates (β : Type) := List (List Char × Nat × β)

namespace Candidates

variable {β : Type}

def ofTable (rows : List (String × β)) : Candidates β :=
  rows.map fun (name, x) => (name.toList, name.length, x)

/-- The names in which a letter comes next. -/
def narrow (c : Char) (cs : Candidates β) : Candidates β :=
  cs.filterMap fun (letters, n, x) =>
    match letters with
    | [] => none
    | d :: letters => if d = c.toLower then some (letters, n, x) else none

/-- What a name of a written length stands for. -/
def choose (length : Nat) (cs : Candidates β) : Option β :=
  match cs with
  | [] => none
  | (_, n, x) :: _ => if n ≤ length then some x else none

end Candidates

/-- Passes a name up to its closing quote. Where the window has to be refilled behind a backslash,
the next character is not escaped. `fuel` bounds its length. -/
def skipName : (fuel : Nat) → Reader Unit
  | 0 => failure
  | fuel + 1 => do
    match ← peek with
    | '"' => pass
    | '\x00' => failure
    | '\\' =>
      pass
      if (← here) = '\x00' then more else pass
      skipName fuel
    | _ =>
      pass
      skipName fuel

/-- Passes the byte at the cursor and the rest of a name, which stands for nothing. -/
def noName {β : Type} : Reader (Option β) := do
  pass
  skipName (← get).budget
  return none

/-- The unit of an escape inside a name, with the cursor at its first digit. -/
def nameUnit : Reader Nat := do
  if (← get).fresh ≤ unitWidth then more
  return unitAt 0 (← get)

/-- Passes half of a surrogate pair inside a name, and three bytes behind it. -/
def passSurrogate : Reader Unit := do
  modify (Window.advance unitWidth)
  modify fun w => if w.fresh ≤ 6 then w.refill.getD w else w
  modify (Window.advance 3)

/-- What a name stands for. `length` counts the bytes that have been written of it, and `fuel`
bounds them. -/
def nameFrom {β : Type} : (fuel : Nat) → Candidates β → (length : Nat) → Reader (Option β)
  | 0, _, _ => failure
  | fuel + 1, cs, length => do
    match ← peek with
    | '"' =>
      pass
      return cs.choose length
    | '\x00' => failure
    | '\\' =>
      pass
      match ← here with
      | 'u' =>
        pass
        let u ← nameUnit
        if isSurrogate u then
          passSurrogate
          noName
        else
          let cs := cs.narrow (Char.ofNat u)
          modify (Window.advance (unitWidth - 1))
          if cs.isEmpty then noName
          else
            pass
            nameFrom fuel cs (length + unitWidth + 2)
      | c =>
        if (escape? c).isNone then failure
        pass
        noName
    | c =>
      let cs := cs.narrow c
      if cs.isEmpty then noName
      else
        pass
        nameFrom fuel cs (length + 1)

/-- What the name of a field stands for in a table. -/
def name {β : Type} (rows : List (String × β)) : Reader (Option β) := do
  if (← next) ≠ '"' then failure
  pass
  nameFrom (← get).budget (Candidates.ofTable rows) 0

/-- The readers of a value's parts by name. Names are in lower case, and the table is sorted by
them. -/
abbrev Parts (α : Type) := List (String × (α → Reader α))

/-- Fields of an object up to its closing brace. Fields that are not asked for are passed over.
`fuel` bounds their number. -/
def fields {α : Type} (room : Nat) (parts : Parts α) : (fuel : Nat) → α → Reader α
  | 0, _ => failure
  | fuel + 1, old => do
    release
    let part ← name parts
    colon
    let x ←
      match part with
      | some read => read old
      | none => skipValue room *> pure old
    match ← next with
    | ',' =>
      pass
      fields room parts fuel x
    | '}' =>
      pass
      return x
    | _ => failure

/-- An object inside which `room` levels of nesting are left. Of two fields with one name the later
counts. -/
def object {α : Type} (room : Nat) (parts : Parts α) (old : α) : Reader α :=
  orNull old do
    if (← next) ≠ '{' then failure
    pass
    if (← next) = '}' then
      pass
      return old
    fields room parts (← get).budget old

end FiberVm.Json
