import FiberVm.Toml.Value

/-!
# TOML statements

A document is read into statements, one per line: headers, which choose a table, and pairs, which
put a value into it. Inside brackets and braces a line may end anywhere.
-/

set_option autoImplicit false

namespace FiberVm.Toml

open Text (mark)

/-- Skips blanks, line breaks and comments. -/
def skipSpace (inComment : Bool) : List Char → List Char
  | [] => []
  | c :: cs =>
    if inComment then skipSpace (!isNewline c) cs
    else if isSpace c || isNewline c then skipSpace false cs
    else if c == '#' then skipSpace true cs
    else c :: cs

/-- Elements with commas between them, up to the closing mark; a comma may also follow the last.
`fuel` bounds their number. -/
def elements {α : Type} (close : Char) (read : Reader α) : Nat → Reader (List α)
  | 0, _ => none
  | fuel + 1, cs =>
    match skipSpace false cs with
    | [] => none
    | c :: cs =>
      if c = close then some ([], cs)
      else do
        let (x, cs) ← read (c :: cs)
        match skipSpace false cs with
        | ',' :: cs =>
          let (xs, cs) ← elements close read fuel cs
          return (x :: xs, cs)
        | c :: cs => if c = close then return ([x], cs) else none
        | [] => none

/-- A key, an equals sign and what the reader takes. -/
def pairOf {α : Type} (read : Reader α) : Reader (Key × α) := fun cs => do
  let (k, cs) ← key cs
  let (x, cs) ← read (← mark '=' cs)
  return ((k, x), cs)

/-- An expression, with arrays and tables nested at most `fuel` levels deep. -/
def expr : (fuel : Nat) → Reader Expr
  | 0, _ => none
  | fuel + 1, cs =>
    match cs.dropWhile isSpace with
    | '[' :: cs =>
      (elements ']' (expr fuel) (cs.length + 1) cs).map fun (es, cs) => (.array es, cs)
    | '{' :: cs =>
      (elements '}' (pairOf (expr fuel)) (cs.length + 1) cs).map fun (ps, cs) => (.table ps, cs)
    | cs => (scalar cs).map fun (x, cs) => (.scalar x, cs)

/-- The end of a line, where a comment may stand. -/
def lineEnd (cs : List Char) : Option (List Char) :=
  match cs.dropWhile isSpace with
  | [] => some []
  | c :: cs => if isNewline c || c == '#' then some (c :: cs) else none

def statement : Reader Statement := fun cs => do
  match cs with
  | '[' :: '[' :: cs =>
    let (k, cs) ← key cs
    let cs ← mark ']' cs
    let cs ← mark ']' cs
    return (.listHeader k, ← lineEnd cs)
  | '[' :: cs =>
    let (k, cs) ← key cs
    let cs ← mark ']' cs
    return (.header k, ← lineEnd cs)
  | cs =>
    let ((k, e), cs) ← pairOf (expr (cs.length + 1)) cs
    return (.pair k e, ← lineEnd cs)

/-- The statements up to the end of the input. `fuel` bounds their number. -/
def statements : Nat → List Char → Option (List Statement)
  | 0, _ => none
  | fuel + 1, cs =>
    match skipSpace false cs with
    | [] => some []
    | cs => do
      let (s, cs) ← statement cs
      let rest ← statements fuel cs
      return s :: rest

/-- Are all control characters among tabs and line breaks? A carriage return stands only before a
line feed. -/
def isClean : List Char → Bool
  | [] => true
  | '\r' :: '\n' :: cs => isClean cs
  | c :: cs => (c == '\t' || c == '\n' || decide (0x20 ≤ c.toNat ∧ c.toNat ≠ 0x7f)) && isClean cs

/-- The bytes without a byte order mark at their front. -/
def withoutOrderMark : List UInt8 → List UInt8
  | 0xFF :: 0xFE :: bs | 0xFE :: 0xFF :: bs | 0xEF :: 0xBB :: 0xBF :: bs => bs
  | bs => bs

/-- The statements of a whole document. -/
def Statement.parseAll? (bytes : List UInt8) : Option (List Statement) := do
  let cs := (← String.fromUTF8? (withoutOrderMark bytes).toByteArray).toList
  if isClean cs then statements (cs.length + 1) cs else failure

end FiberVm.Toml
