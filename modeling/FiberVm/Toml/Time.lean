import FiberVm.Text.Fields
import FiberVm.Time.Calendar

/-!
# Dates and times

A date, a time of day, or both, and with both also an offset. Seconds may be left out; with seconds
there may be a fraction.
-/

set_option autoImplicit false

namespace FiberVm.Toml

open Text (number mark)

def date (cs : List Char) : Option (List Char) := do
  let (y, cs) ← number 4 cs
  let (m, cs) ← number 2 (← mark '-' cs)
  let (d, cs) ← number 2 (← mark '-' cs)
  if Date.isValid ⟨y, m, d⟩ then return cs else failure

/-- The fraction of a second, if there is one. -/
def fraction : List Char → Option (List Char)
  | '.' :: cs =>
    if (cs.head?.map Char.isDigit).getD false then some (cs.dropWhile Char.isDigit) else none
  | cs => some cs

def timeOfDay (cs : List Char) : Option (List Char) := do
  let (h, cs) ← number 2 cs
  let (m, cs) ← number 2 (← mark ':' cs)
  if 23 < h ∨ 59 < m then failure
  match cs with
  | ':' :: cs =>
    let (s, cs) ← number 2 cs
    if 59 < s then failure
    fraction cs
  | cs => return cs

/-- An offset from universal time, if there is one. -/
def offset : List Char → Option (List Char)
  | 'Z' :: cs => some cs
  | c :: cs =>
    if c = '+' ∨ c = '-' then do
      let (h, cs) ← number 2 cs
      let (m, cs) ← number 2 (← mark ':' cs)
      if 24 < h ∨ 60 < m then failure else return cs
    else some (c :: cs)
  | [] => some []

/-- Is this a date, a time or both? A blank may stand between them, and letters may be small. -/
def isTime (spelling : List Char) : Bool :=
  let cs := spelling.map fun c => if c = 'z' then 'Z' else if c = 't' ∨ c = ' ' then 'T' else c
  match date cs with
  | some [] => true
  | some ('T' :: cs) => (timeOfDay cs).bind offset == some []
  | some _ => false
  | none => timeOfDay cs == some []

end FiberVm.Toml
