import FiberVm.Toml.Basic

/-!
# TOML texts

Texts stand between double quotes, where a backslash starts an escape, or between single quotes,
where every character stands for itself. Three quotes on either side allow line breaks inside: a
break right after the opening quotes does not count, and a backslash at the end of a line takes away
all white space that follows.
-/

set_option autoImplicit false

namespace FiberVm.Toml

/-- Reads a value from the front of the input. -/
abbrev Reader (α : Type) := List Char → Option (α × List Char)

def isSpace (c : Char) : Bool := c == ' ' || c == '\t'

/-- A part of a line break. -/
def isNewline (c : Char) : Bool := c == '\n' || c == '\r'

def hexDigit? (c : Char) : Option Nat :=
  if '0' ≤ c ∧ c ≤ '9' then some (c.toNat - '0'.toNat)
  else if 'a' ≤ c ∧ c ≤ 'f' then some (c.toNat - 'a'.toNat + 10)
  else if 'A' ≤ c ∧ c ≤ 'F' then some (c.toNat - 'A'.toNat + 10)
  else none

/-- The character with a code in hexadecimal digits. -/
def ofHex? (ds : List Char) : Option Char := do
  let values ← ds.mapM hexDigit?
  let n := values.foldl (fun n d => n * 16 + d) 0
  if n.isValidChar then return Char.ofNat n else failure

/-- The character that a letter after a backslash stands for. -/
def escape? : Char → Option Char
  | 'b' => some '\x08'
  | 't' => some '\t'
  | 'n' => some '\n'
  | 'f' => some '\x0c'
  | 'r' => some '\r'
  | 'e' => some '\x1b'
  | '"' => some '"'
  | '\\' => some '\\'
  | _ => none

def push (c? : Option Char) (r : Option (List Char × List Char)) :
    Option (List Char × List Char) := do
  let c ← c?
  let (cs, rest) ← r
  return (c :: cs, rest)

/-- A text between double quotes, after the opening one. -/
def basic : Reader (List Char)
  | [] => none
  | '"' :: cs => some ([], cs)
  | '\\' :: 'x' :: a :: b :: cs => push (ofHex? [a, b]) (basic cs)
  | '\\' :: 'u' :: a :: b :: c :: d :: cs => push (ofHex? [a, b, c, d]) (basic cs)
  | '\\' :: 'U' :: a :: b :: c :: d :: e :: f :: g :: h :: cs =>
    push (ofHex? [a, b, c, d, e, f, g, h]) (basic cs)
  | '\\' :: c :: cs => push (escape? c) (basic cs)
  | c :: cs => if isNewline c || c == '\\' then none else push (some c) (basic cs)

/-- A text between single quotes, after the opening one. -/
def plain : Reader (List Char)
  | [] => none
  | '\'' :: cs => some ([], cs)
  | c :: cs => if isNewline c then none else push (some c) (plain cs)

/-- What a quote does inside three quotes. -/
inductive Quote
  | belongs
  | closes
  | excess
deriving DecidableEq, Repr

/-- What the first of some quotes does, given how many stand right before it. Exactly three quotes
close the text. Of more than three the first belongs to the text, unless it and the next two make
five in a row with those before; five that come right after a backslash are allowed. -/
def quoteAt (before : Nat) (afterBackslash : Bool) (quote : Char) (cs : List Char) : Quote :=
  let run := (cs.takeWhile (· == quote)).length
  if run < 3 then .belongs
  else if run = 3 then .closes
  else if 2 < before ∨ (before = 2 ∧ !afterBackslash) then .excess
  else .belongs

/-- How the text so far ends: with so many quotes, and whether a backslash stands before them. -/
structure Ending where
  quotes : Nat := 0
  afterBackslash : Bool := false
deriving DecidableEq, Repr

/-- The ending after an escape, which may itself spell a quote or a backslash. -/
def Ending.ofEscape (c : Char) : Ending :=
  { quotes := if c == '"' then 1 else 0, afterBackslash := c == '"' || c == '\\' }

/-- A text between three double quotes. After a backslash at the end of a line, `skipping` is set
until something other than white space comes. -/
def multiline (skipping : Bool) (ending : Ending) : Reader (List Char)
  | [] => none
  | '\\' :: 'x' :: a :: b :: cs => push (ofHex? [a, b]) (multiline false {} cs)
  | '\\' :: 'u' :: a :: b :: c :: d :: cs => push (ofHex? [a, b, c, d]) (multiline false {} cs)
  | '\\' :: 'U' :: a :: b :: c :: d :: e :: f :: g :: h :: cs =>
    push (ofHex? [a, b, c, d, e, f, g, h]) (multiline false {} cs)
  | '\\' :: c :: cs =>
    if ((c :: cs).takeWhile fun d => isSpace d || isNewline d).any isNewline then
      multiline true {} cs
    else push (escape? c) (multiline false (.ofEscape c) cs)
  | c :: cs =>
    if skipping && (isSpace c || isNewline c) then multiline true {} cs
    else if c == '\\' then none
    else if c == '"' then
      match quoteAt ending.quotes ending.afterBackslash '"' (c :: cs) with
      | .closes => some ([], cs.drop 2)
      | .excess => none
      | .belongs =>
        push (some c) (multiline false { ending with quotes := ending.quotes + 1 } cs)
    else push (some c) (multiline false {} cs)

/-- A text between three single quotes, where `quotes` of them come right before. -/
def multilinePlain (quotes : Nat) : Reader (List Char)
  | [] => none
  | c :: cs =>
    if c == '\'' then
      match quoteAt quotes false '\'' (c :: cs) with
      | .closes => some ([], cs.drop 2)
      | .excess => none
      | .belongs => push (some c) (multilinePlain (quotes + 1) cs)
    else push (some c) (multilinePlain 0 cs)

/-- The input without a line break at its front. -/
def skipBreak : List Char → List Char
  | '\n' :: cs => cs
  | '\r' :: '\n' :: cs => cs
  | cs => cs

/-- A text in any of the four kinds of quotes. -/
def quotedText : Reader String := fun cs =>
  let r :=
    match cs with
    | '"' :: '"' :: '"' :: cs => multiline false {} (skipBreak cs)
    | '\'' :: '\'' :: '\'' :: cs => multilinePlain 0 (skipBreak cs)
    | '"' :: cs => basic cs
    | '\'' :: cs => plain cs
    | _ => none
  r.map fun (cs, rest) => (String.ofList cs, rest)

end FiberVm.Toml
