/-!
# TOML values

A document is a tree of tables. What stands on the right of a pair is an expression; its value goes
into the tree.
-/

set_option autoImplicit false

namespace FiberVm.Toml

/-- The names of a dotted key. -/
abbrev Key := List String

/-- What a key stands for. -/
inductive Node
  | text (s : String)
  | integer (n : Int)
  | bool (b : Bool)
  /-- A number with a fraction or an exponent, as it is spelled. -/
  | float (spelling : String)
  /-- A date, a time or both, as they are spelled. -/
  | time (spelling : String)
  | array (items : List Node)
  | table (entries : List (String × Node))
  /-- The tables that share a header, newest first. -/
  | tables (elements : List (List (String × Node)))
deriving Repr

abbrev Entries := List (String × Node)

/-- The right side of a pair. -/
inductive Expr
  | scalar (x : Node)
  | array (items : List Expr)
  /-- An inline table. -/
  | table (pairs : List (Key × Expr))
deriving Repr

inductive Statement
  | header (k : Key)
  | listHeader (k : Key)
  | pair (k : Key) (e : Expr)
deriving Repr

/-- Characters that a name may have without quotes. -/
def isBare (c : Char) : Bool := c.isAlphanum || c == '_' || c == '-'

def hex4 (n : Nat) : List Char :=
  let ds := Nat.toDigits 16 n
  List.replicate (4 - ds.length) '0' ++ ds

/-- One character of a name between quotes. -/
def quotedChar (c : Char) : List Char :=
  match c with
  | '"' => ['\\', '"']
  | '\\' => ['\\', '\\']
  | '\x08' => ['\\', 'b']
  | '\t' => ['\\', 't']
  | '\n' => ['\\', 'n']
  | '\x0c' => ['\\', 'f']
  | '\r' => ['\\', 'r']
  | c => if c.toNat < 0x20 ∨ c.toNat = 0x7f then '\\' :: 'u' :: hex4 c.toNat else [c]

/-- A name as it is written in a key. -/
def nameText (s : String) : String :=
  if s != "" && s.toList.all isBare then s
  else String.ofList ('"' :: s.toList.flatMap quotedChar ++ ['"'])

def Key.text (k : Key) : String := ".".intercalate (k.map nameText)

end FiberVm.Toml
