import FiberVm.Json.Quoted

/-!
# Writing JSON

Every member of a list and every field of an object stands on a line of its own, indented by two
blanks per level. An empty list is a pair of brackets.
-/

set_option autoImplicit false

namespace FiberVm.Json

/-- A new line at a level. -/
def newline (level : Nat) : List Char := '\n' :: List.replicate (2 * level) ' '

/-- Items on lines of their own, with commas between them. -/
def lines (level : Nat) (items : List (List Char)) : List Char :=
  [','].intercalate (items.map (newline level ++ ·))

/-- A list at a level. -/
def listText (level : Nat) (items : List (List Char)) : List Char :=
  if items.isEmpty then ['[', ']']
  else '[' :: lines (level + 1) items ++ newline level ++ [']']

/-- One field of an object. -/
def fieldText (name : String) (value : List Char) : List Char := quoted name ++ [':', ' '] ++ value

/-- An object at a level. -/
def objectText (level : Nat) (fields : List (List Char)) : List Char :=
  '{' :: lines (level + 1) fields ++ newline level ++ ['}']

def integerText (n : Int) : List Char := (toString n).toList

end FiberVm.Json
